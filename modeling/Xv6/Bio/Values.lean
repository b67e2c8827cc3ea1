/-
# Where the value of a block is

The value of a block moves: from the disk into a clean buffer, into a modified
buffer, which `log_write` pins, from there to the log and from the log to its
home.  `Ops` counts the operations and the commit that runs alone; `Values` says
where the value of every block is, with one lemma for each step that moves a
value, all from `Values.change`.
-/

import Xv6.Bio.Cache

namespace Xv6.Bio

open Function Lib State
open Job (active busy_commit busy_out active_out)
open State (setBuf)

variable {P : Type*} [Fintype P] {s s' : State P} {i : Fin NBUF} {b : UInt32}

/-! ### Operations and the commit -/

/-- `outstanding` counts the operations, `committing` the process in `commit`, which
runs with no operation in progress. -/
structure Ops (l : Log.State) (job : P → Job) : Prop where
  outstanding : l.outstanding = ((∑ p, (job p).active : ℕ) : ℤ)
  busy : ∑ p, (job p).busy = l.committing.toNat
  alone : l.committing = true → l.outstanding = 0

namespace Ops

variable {l : Log.State} {job : P → Job} {p : P}

/-- While no commit is going on, no process is in one. -/
theorem no_commit (h : Ops l job) (hc : l.committing = false) (p : P) (g : Stage) :
    job p ≠ .commit g := fun hp => by
  have hle : (job p).busy ≤ _ := le_sum Job.busy job p
  rw [h.busy, hc, hp, busy_commit, Bool.toNat_false] at hle
  omega

/-- While an operation is in progress, no commit is going on. -/
theorem idle_of_inOp (h : Ops l job) (hp : job p = .inOp) :
    l.committing = false ∧ l.outstanding ≠ 0 := by
  have hle : (job p).active ≤ _ := le_sum active job p
  have ho := h.outstanding
  rw [hp, Job.active_inOp] at hle
  have h0 : l.outstanding ≠ 0 := by omega
  exact ⟨by simpa using fun hc => h0 (h.alone hc), h0⟩

theorem no_commit_of_inOp (h : Ops l job) (hp : job p = .inOp) (q : P) (g : Stage) :
    job q ≠ .commit g := h.no_commit (h.idle_of_inOp hp).1 q g

/-- The log's other fields do not matter. -/
theorem congr {l' : Log.State} (h : Ops l job) (ho : l'.outstanding = l.outstanding)
    (hc : l'.committing = l.committing) : Ops l' job :=
  ⟨ho.trans h.outstanding, hc ▸ h.busy, fun hl => ho.trans (h.alone (hc ▸ hl))⟩

variable [DecidableEq P]

variable (h : Ops l job)

include h

/-- One process commits. -/
theorem commit_unique {q : P} {g g' : Stage} (hp : job p = .commit g)
    (hq : job q = .commit g') : q = p := by
  by_contra hne
  have hsum := sum_update Job.busy job p .out
  have hle : (update job p .out q).busy ≤ _ :=
    le_sum Job.busy (update job p .out) q
  have hc := Bool.toNat_le l.committing
  rw [update_of_ne hne, hq, busy_commit] at hle
  rw [hp, h.busy, busy_commit, busy_out] at hsum
  omega

/-- A process that goes on with what it is doing. -/
theorem goOn {j : Job} (ha : j.active = (job p).active)
    (hb : j.busy = (job p).busy) : Ops l (update job p j) := by
  have h1 := sum_update active job p j
  have h2 := sum_update Job.busy job p j
  refine ⟨?_, ?_, h.alone⟩
  · rw [show ∑ q, (update job p j q).active = ∑ q, (job q).active by omega]
    exact h.outstanding
  · rw [← h.busy]
    omega

theorem beginOp {l' : Log.State} (hp : job p = .out)
    (hl : l.beginOp = some l') : Ops l' (update job p .inOp) := by
  obtain ⟨hc, -, rfl⟩ := Log.State.beginOp_eq_some hl
  have h1 := sum_update active job p .inOp
  have h2 := sum_update Job.busy job p .inOp
  rw [hp, active_out, Job.active_inOp] at h1
  rw [hp, busy_out, Job.busy_inOp] at h2
  refine ⟨?_, h2.trans h.busy, fun hl => ?_⟩
  · rw [show ∑ q, _ = _ from h1, Nat.cast_add, ← h.outstanding]
    rfl
  · rw [show _ = false from hc] at hl
    cases hl

/-- `end_op`: the last operation commits. -/
theorem endOp {r : Log.State × Bool} (hp : job p = .inOp) (hl : l.endOp = .ok r) :
    Ops r.1 (update job p (if r.2 then .commit .start else .out)) := by
  have h1 := fun j => sum_update active job p j
  have h2 := fun j => sum_update Job.busy job p j
  have ho := h.outstanding
  simp only [hp, Job.active_inOp, Job.busy_inOp] at h1 h2
  unfold Log.State.endOp at hl
  split_ifs at hl with hc hz
  · cases hl
    have h1 := h1 (.commit .start)
    have h2 := h2 (.commit .start)
    rw [Job.active_commit] at h1
    rw [busy_commit, h.busy, Bool.eq_false_iff.2 hc] at h2
    refine ⟨?_, h2, fun _ => hz⟩
    dsimp only
    rw [if_pos rfl]
    omega
  · cases hl
    have h1 := h1 .out
    have h2 := h2 .out
    rw [active_out] at h1
    rw [busy_out, h.busy] at h2
    refine ⟨?_, h2, fun hl => absurd hl hc⟩
    dsimp only
    rw [if_neg Bool.false_ne_true]
    omega

theorem finish {g : Stage} (hp : job p = .commit g) : Ops l.finish (update job p .out) := by
  have h1 := sum_update active job p .out
  have h2 := sum_update Job.busy job p .out
  have hc := Bool.toNat_le l.committing
  rw [hp, Job.active_commit, active_out] at h1
  rw [hp, busy_commit, busy_out, h.busy] at h2
  refine ⟨?_, ?_, nofun⟩
  · rw [show ∑ q, _ = _ from h1]
    exact h.outstanding
  · rw [show l.finish.committing.toNat = 0 from rfl]
    omega

end Ops

/-! ### Where the value of a block is -/

/-- The log region is addressable, the blocks in `lh` lie outside it, and it has room
for them. -/
structure Region (s : State P) : Prop where
  fits : s.log.start + s.log.size < 2 ^ 32
  logged : ∀ b ∈ s.log.lh, ¬ s.inLog b
  room : ∀ tail < s.log.lh.length, tail + 1 < s.log.size

/-- A valid buffer holds the value of its block, or, in the log, what is on disk; a
block outside the log is on disk, or in a buffer that `bget` leaves alone.  A buffer
modified and not yet logged is locked by a process in its operation. -/
structure Values (s : State P) : Prop where
  data : ∀ i b, s.holds i b → (s.buf i).valid = true → ¬ s.inLog b → (s.buf i).data = s.mem b
  logData : ∀ i b, s.holds i b → (s.buf i).valid = true → s.inLog b →
    (s.buf i).data = s.disk ROOTDEV b
  home : ∀ b, ¬ s.inLog b → s.disk ROOTDEV b = s.mem b ∨
    ∃ i, s.holds i b ∧ (s.buf i).valid = true ∧ ((s.buf i).dirty = true ∨ s.unlogged i = true)
  unlogged : ∀ i, s.unlogged i = true → ∃ p, (s.buf i).lock = some p ∧ s.job p = .inOp

/-- A step that leaves disk, contents and flags alone. -/
structure Same (s s' : State P) : Prop where
  view : ∀ i, (s'.buf i).dev = (s.buf i).dev ∧ (s'.buf i).blockno = (s.buf i).blockno ∧
    (s'.buf i).valid = (s.buf i).valid ∧ (s'.buf i).dirty = (s.buf i).dirty ∧
      (s'.buf i).data = (s.buf i).data
  disk : s'.disk = s.disk
  mem : s'.mem = s.mem
  unlogged : s'.unlogged = s.unlogged
  start : s'.log.start = s.log.start
  size : s'.log.size = s.log.size

omit [Fintype P] in
theorem Same.holds (h : Same s s') (i : Fin NBUF) (b : UInt32) : s'.holds i b ↔ s.holds i b := by
  unfold State.holds
  rw [(h.view i).1, (h.view i).2.1]

omit [Fintype P] in
/-- `bwrite` cleans its buffer and changes one block. -/
theorem bwrite_eq (hi : s.holds i b) (d : Block) : s.bwrite i d =
    { s.setBuf i { s.buf i with data := d, valid := true, dirty := false } with
      disk := update s.disk ROOTDEV (update (s.disk ROOTDEV) b d) } := by
  unfold State.bwrite State.iderw setBuf
  simp only [update_self, update_idem, if_true, hi.1, hi.2]

namespace Values

omit [Fintype P] in
/-- A step that also leaves the locks of modified buffers with their holders. -/
theorem congr (h : Values s) (hs : Same s s')
    (hlock : ∀ i p, s.unlogged i = true → (s.buf i).lock = some p → s.job p = .inOp →
      (s'.buf i).lock = some p ∧ s'.job p = .inOp) : Values s' := by
  have hin : ∀ b, s'.inLog b ↔ s.inLog b := fun b => by unfold inLog; rw [hs.start, hs.size]
  refine ⟨fun i b hb hv hn => ?_, fun i b hb hv hn => ?_, fun b hn => ?_, fun i hi => ?_⟩
  · rw [(hs.view i).2.2.2.2, hs.mem]
    exact h.data i b ((hs.holds i b).1 hb) ((hs.view i).2.2.1 ▸ hv) fun hl => hn ((hin b).2 hl)
  · rw [(hs.view i).2.2.2.2, hs.disk]
    exact h.logData i b ((hs.holds i b).1 hb) ((hs.view i).2.2.1 ▸ hv) ((hin b).1 hn)
  · rw [hs.disk, hs.mem]
    refine (h.home b fun hl => hn ((hin b).2 hl)).imp_right ?_
    rintro ⟨i, hi, hv, hd⟩
    refine ⟨i, (hs.holds i b).2 hi, (hs.view i).2.2.1.trans hv, ?_⟩
    rw [(hs.view i).2.2.2.1, hs.unlogged]
    exact hd
  · rw [hs.unlogged] at hi
    obtain ⟨p, hl, hj⟩ := h.unlogged i hi
    exact ⟨p, hlock i p hi hl hj⟩

/-- A block that has no valid buffer is on disk. -/
theorem disk_eq (h : Values s) (hb : Bufs s) (hi : s.holds i b)
    (hv : (s.buf i).valid = false) (hn : ¬ s.inLog b) : s.disk ROOTDEV b = s.mem b := by
  rcases h.home b hn with hd | ⟨j, hj, hjv, -⟩
  · exact hd
  · rw [hb.unique j i b hj hi, hv] at hjv
    cases hjv

omit [Fintype P] in
/-- An unlocked buffer is not modified. -/
theorem unlogged_eq_false (h : Values s) (hl : (s.buf i).lock = none) : s.unlogged i = false := by
  by_contra hu
  obtain ⟨p, hp, -⟩ := h.unlogged i (by simpa using hu)
  rw [hl] at hp
  cases hp

/-- **A step that changes buffer `i`**: what it must show of that buffer, of the block
it held, and of the rest, which stays. -/
theorem change (h : Values s) (hb : Bufs s)
    (hother : ∀ j, j ≠ i → s'.buf j = s.buf j ∧ s'.unlogged j = s.unlogged j)
    (hstart : s'.log.start = s.log.start) (hsize : s'.log.size = s.log.size)
    (hjob : ∀ p, s.job p = .inOp → s'.job p = .inOp)
    (hkeep : ∀ b, ¬ s.holds i b → s'.mem b = s.mem b ∧ s'.disk ROOTDEV b = s.disk ROOTDEV b)
    (hdata : ∀ b, s'.holds i b → (s'.buf i).valid = true →
      (s'.buf i).data = if s.inLog b then s'.disk ROOTDEV b else s'.mem b)
    (hhome : ∀ b, s.holds i b → ¬ s.inLog b → s'.disk ROOTDEV b = s'.mem b ∨
      s'.holds i b ∧ (s'.buf i).valid = true ∧ ((s'.buf i).dirty = true ∨ s'.unlogged i = true))
    (hun : s'.unlogged i = true → ∃ p, (s'.buf i).lock = some p ∧ s'.job p = .inOp) :
    Values s' := by
  have hin : ∀ b, s'.inLog b ↔ s.inLog b := fun b => by unfold inLog; rw [hstart, hsize]
  have hholds : ∀ j b, j ≠ i → (s'.holds j b ↔ s.holds j b) := fun j b hj => by
    unfold holds
    rw [(hother j hj).1]
  have hnot : ∀ j b, j ≠ i → s.holds j b → ¬ s.holds i b := fun j b hj hjb hib =>
    hj (hb.unique j i b hjb hib)
  refine ⟨fun j b hj hv hn => ?_, fun j b hj hv hn => ?_, fun b hn => ?_, fun j hj => ?_⟩
  · by_cases hji : j = i
    · subst hji
      have := hdata b hj hv
      rwa [if_neg fun hl => hn ((hin b).2 hl)] at this
    · have hjb := (hholds j b hji).1 hj
      rw [(hother j hji).1] at hv ⊢
      rw [(hkeep b (hnot j b hji hjb)).1]
      exact h.data j b hjb hv fun hl => hn ((hin b).2 hl)
  · by_cases hji : j = i
    · subst hji
      have := hdata b hj hv
      rwa [if_pos ((hin b).1 hn)] at this
    · have hjb := (hholds j b hji).1 hj
      rw [(hother j hji).1] at hv ⊢
      rw [(hkeep b (hnot j b hji hjb)).2]
      exact h.logData j b hjb hv ((hin b).1 hn)
  · have hn' : ¬ s.inLog b := fun hl => hn ((hin b).2 hl)
    by_cases hib : s.holds i b
    · exact (hhome b hib hn').imp_right fun hi => ⟨i, hi⟩
    · rw [(hkeep b hib).1, (hkeep b hib).2]
      refine (h.home b hn').imp_right ?_
      rintro ⟨j, hj, hjv, hjd⟩
      have hji : j ≠ i := by
        rintro rfl
        exact hib hj
      refine ⟨j, (hholds j b hji).2 hj, ?_, ?_⟩
      · rw [(hother j hji).1]
        exact hjv
      · rw [(hother j hji).1, (hother j hji).2]
        exact hjd
  · by_cases hji : j = i
    · subst hji
      exact hun hj
    · rw [(hother j hji).2] at hj
      obtain ⟨p, hl, hp⟩ := h.unlogged j hj
      exact ⟨p, by rw [(hother j hji).1]; exact hl, hjob p hp⟩

variable {p : P}

/-- A modification gives the block its new value. -/
theorem store (h : Values s) (hb : Bufs s) {d : Block}
    (hm : s.mayStore p i) : Values (s.store i d) := by
  have hv := hb.valid_of_mayStore hm
  obtain ⟨-, hop, hl, hdev, hn⟩ := hm
  refine h.change hb (i := i) (fun j hj => ⟨update_of_ne hj _ _,
    update_of_ne hj _ _⟩) rfl rfl (fun _ hp => hp) (fun b hnb => ⟨?_, rfl⟩)
    (fun b hib _ => ?_) (fun b hib _ => .inr ?_) fun _ => ⟨p, ?_, hop⟩
  · exact update_of_ne (fun hbb => hnb ⟨hdev, hbb.symm⟩) _ _
  · simp only [State.store, setBuf, State.holds, update_self] at hib ⊢
    obtain ⟨-, rfl⟩ := hib
    rw [if_neg hn, update_self]
  · simp only [State.store, setBuf, State.holds, update_self]
    exact ⟨hib, hv, .inr trivial⟩
  · simp only [State.store, setBuf, update_self]
    exact hl

/-- `log_write` pins the modified buffer. -/
theorem logWrite (h : Values s) (hb : Bufs s) {l : Log.State}
    (hm : s.mayStore p i) (hstart : l.start = s.log.start) (hsize : l.size = s.log.size) :
    Values { s.setBuf i { s.buf i with dirty := true } with
      log := l, unlogged := update s.unlogged i false } := by
  have hv := hb.valid_of_mayStore hm
  obtain ⟨-, -, -, -, hn⟩ := hm
  refine h.change hb (i := i) (fun j hj => ⟨update_of_ne hj _ _,
    update_of_ne hj _ _⟩) hstart hsize (fun _ hp => hp) (fun _ _ => ⟨rfl, rfl⟩)
    (fun b hib _ => ?_) (fun b hib _ => .inr ?_) fun hu => ?_
  · simp only [setBuf, State.holds, update_self] at hib ⊢
    have hib' := hib.2
    subst hib'
    rw [if_neg hn]
    exact h.data i _ hib hv hn
  · simp only [setBuf, State.holds, update_self]
    exact ⟨hib, hv, .inl trivial⟩
  · simp at hu

variable [DecidableEq P]

/-- **Recycling loses nothing.**  The buffer `bget` recycles is clean and unlocked, so
the value of its old block is on disk. -/
theorem recycle (h : Values s) (hb : Bufs s) {d : UInt32} (hv : s.victim = some i) :
    Values ((s.setBuf i { s.buf i with
      dev := d, blockno := b, valid := false, dirty := false, refcnt := 1 }).setCall p
        (.locking i)) := by
  obtain ⟨hz, hclean⟩ := Bufs.victim_eq_some hv
  have hun := h.unlogged_eq_false (hb.of_refcnt hz).1
  refine h.change hb (i := i) (fun j hj => ⟨update_of_ne hj _ _, rfl⟩) rfl rfl
    (fun _ hp => hp) (fun _ _ => ⟨rfl, rfl⟩) (fun x _ hvalid => ?_) (fun x hx hn => .inl ?_)
    (fun hu => ?_)
  · simp [setCall, setBuf] at hvalid
  · rcases h.home x hn with hdisk | ⟨j, hj, -, hjd⟩
    · exact hdisk
    · rw [hb.unique j i x hj hx, hclean, hun] at hjd
      simp at hjd
  · rw [show s.unlogged i = true from hu] at hun
    cases hun

/-- `bread` of a buffer that is not valid reads the disk, where the value is. -/
theorem fill (h : Values s) (hb : Bufs s) {c : Call} {j : Job} (hj : s.job p = .inOp → j = .inOp) :
    Values (((if (s.buf i).valid then s else s.iderw i).setCall p c).setJob p j) := by
  have hjob : ∀ q, s.job q = .inOp → update s.job p j q = .inOp := fun q hq => by
    rw [update_apply]
    split_ifs with hqp
    · exact hj (hqp ▸ hq)
    · exact hq
  by_cases hv : (s.buf i).valid = true
  · rw [if_pos hv]
    exact h.congr ⟨fun _ => ⟨rfl, rfl, rfl, rfl, rfl⟩, rfl, rfl, rfl, rfl, rfl⟩
      fun k q _ hl hq => ⟨hl, hjob q hq⟩
  · have hd : (s.buf i).dirty = false := by
      by_contra hd
      exact hv (hb.dirty i (by simpa using hd))
    have hv : (s.buf i).valid = false := by simpa using hv
    rw [if_neg (by simp [hv]), iderw, hd, if_neg (by simp)]
    refine h.change hb (i := i) (fun k hk => ⟨update_of_ne hk _ _, rfl⟩) rfl rfl
      hjob (fun _ _ => ⟨rfl, rfl⟩) (fun x hx _ => ?_) (fun x hx hn => .inl (h.disk_eq hb hx hv hn))
      (fun hu => ?_)
    · simp only [setJob, setCall, setBuf, holds, update_self] at hx ⊢
      rw [hx.1, hx.2]
      split_ifs with hn
      · rfl
      · exact h.disk_eq hb hx hv hn
    · obtain ⟨q, hl, hq⟩ := h.unlogged i hu
      refine ⟨q, ?_, hjob q hq⟩
      simp only [setJob, setCall, setBuf, update_self]
      exact hl

/-- `bwrite` of a log block, or of the value of a block outside the log. -/
theorem bwrite (h : Values s) (hb : Bufs s) {d : Block}
    {g k : Stage} (hp : s.job p = .commit g) (hi : s.holds i b)
    (hd : ¬ s.inLog b → d = s.mem b) : Values ((s.bwrite i d).setJob p (.commit k)) := by
  have hjob : ∀ q, s.job q = .inOp → update s.job p (.commit k) q = .inOp := fun q hq => by
    rw [update_of_ne _ _ _]
    · exact hq
    · rintro rfl
      rw [hp] at hq
      cases hq
  rw [bwrite_eq hi]
  refine h.change hb (i := i) (fun j hj => ⟨update_of_ne hj _ _, rfl⟩) rfl rfl hjob
    (fun x hx => ⟨rfl, ?_⟩) (fun x hx _ => ?_) (fun x hx hn => .inl ?_) fun hu => ?_
  · simp only [setJob, update_self]
    exact update_of_ne (fun hxb => hx ⟨hi.1, hi.2.trans hxb.symm⟩) _ _
  · simp only [setJob, setBuf, holds, update_self] at hx ⊢
    obtain rfl : b = x := hi.2.symm.trans hx.2
    rw [update_self]
    split_ifs with hn
    · rfl
    · exact hd hn
  · obtain rfl : b = x := hi.2.symm.trans hx.2
    simp only [setJob, update_self]
    exact hd hn
  · obtain ⟨q, hl, hq⟩ := h.unlogged i hu
    refine ⟨q, ?_, hjob q hq⟩
    simp only [setJob, setBuf, update_self]
    exact hl

end Values

end Xv6.Bio
