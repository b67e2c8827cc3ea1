/-
# The buffer cache

`bio.c` and the parts of `log.c` that use it: `bget`, `bread`, `bwrite` and
`brelse` on `bcache`, `log_write`, and `commit` with its copies between the
cache, the log and the home blocks.  Any number of processes make the steps:
one section under `bcache.lock`, the wait for a buffer's sleep-lock, one disk
request, and the modification of a buffer in place.

A process modifies a buffer only inside its operation, while it holds the
buffer's lock, and only a block of the root device outside the log; it passes
the buffer to `log_write` before `brelse`.  `log_write` is one step.

`Bufs` is the invariant of the buffers themselves: a block of the root device
has at most one buffer, a buffer that someone uses has a positive `refcnt`.
-/

import Xv6.Log.Ops
import Xv6.Log.Commit
import Xv6.Lib.Run
import Xv6.Lib.Counting

namespace Xv6.Bio

open Function Lib

/-- `struct buf`: the two flags, the block it holds, the holder of its sleep-lock. -/
structure Buf (P : Type*) where
  valid : Bool
  dirty : Bool
  dev : UInt32
  blockno : UInt32
  lock : Option P
  refcnt : ℕ
  data : Block

/-- Where a process is in `bread` or `brelse`. -/
inductive Call where
  | idle
  /-- In `bget`, past `bcache.lock`, waiting for the buffer's lock. -/
  | locking (i : Fin NBUF)
  /-- In `bread`, with the buffer locked. -/
  | reading (i : Fin NBUF)
  /-- In `brelse`, with the buffer unlocked and `refcnt` not yet decremented. -/
  | releasing (i : Fin NBUF)
deriving DecidableEq

/-- Where a copy of `write_log` or `install_trans` is; the first buffer holds the
log block, the second the home block. -/
inductive Copy where
  | first
  | second (x : Fin NBUF)
  | write (x y : Fin NBUF)
  | release (x y : Fin NBUF)
  | last (z : Fin NBUF)
deriving DecidableEq

/-- Where `write_head` is. -/
inductive Head where
  | read
  | write (x : Fin NBUF)
  | release (x : Fin NBUF)
deriving DecidableEq

/-- Where `commit` is. -/
inductive Stage where
  | start
  | writeLog (tail : ℕ) (c : Copy)
  | writeHead (h : Head)
  | installTrans (tail : ℕ) (c : Copy)
  | clear
  | eraseHead (h : Head)
  | done
deriving DecidableEq

namespace Stage

/-- The block of the root device that `commit` passes to `bread` next. -/
def wants (l : Log.State) : Stage → Option UInt32
  | writeLog tail .first | installTrans tail .first =>
      if tail < l.lh.length then some (UInt32.ofNat (l.start + tail + 1)) else none
  | writeLog tail (.second _) | installTrans tail (.second _) => l.lh[tail]?
  | writeHead .read | eraseHead .read => some (UInt32.ofNat l.start)
  | _ => none

/-- `bread` has returned buffer `i` to `commit`. -/
def got (i : Fin NBUF) : Stage → Stage
  | writeLog tail .first => writeLog tail (.second i)
  | writeLog tail (.second x) => writeLog tail (.write x i)
  | installTrans tail .first => installTrans tail (.second i)
  | installTrans tail (.second x) => installTrans tail (.write x i)
  | writeHead .read => writeHead (.write i)
  | eraseHead .read => eraseHead (.write i)
  | g => g

/-- The buffer `commit` passes to `brelse` next, and where it is afterwards. -/
def releases : Stage → Option (Fin NBUF × Stage)
  | writeLog tail (.release x y) => some (y, writeLog tail (.last x))
  | writeLog tail (.last z) => some (z, writeLog (tail + 1) .first)
  | installTrans tail (.release x y) => some (x, installTrans tail (.last y))
  | installTrans tail (.last z) => some (z, installTrans (tail + 1) .first)
  | writeHead (.release x) => some (x, installTrans 0 .first)
  | eraseHead (.release x) => some (x, done)
  | _ => none

end Stage

/-- What a process is doing. -/
inductive Job where
  /-- Nothing that writes. -/
  | out
  /-- An operation. -/
  | inOp
  /-- The commit of its `end_op`. -/
  | commit (g : Stage)
deriving DecidableEq

namespace Job

/-- Block `b` of device `dev` may be read; `commit` reads only what it wants. -/
def mayGet (l : Log.State) (dev b : UInt32) : Job → Prop
  | commit g => dev = ROOTDEV ∧ g.wants l = some b
  | _ => True

instance (l : Log.State) (dev b : UInt32) (j : Job) : Decidable (j.mayGet l dev b) := by
  cases j <;> unfold mayGet <;> infer_instance

/-- `bread` has returned buffer `i`. -/
def got (i : Fin NBUF) : Job → Job
  | commit g => commit (g.got i)
  | j => j

/-- The job after `brelse` of buffer `i`, if it may be released. -/
def released (i : Fin NBUF) : Job → Option Job
  | commit g =>
      match g.releases with
      | some (j, g') => if i = j then some (commit g') else none
      | none => none
  | j => some j

/-- `1` inside an operation. -/
def active : Job → ℕ
  | inOp => 1
  | _ => 0

/-- `1` inside `commit`. -/
def busy : Job → ℕ
  | commit _ => 1
  | _ => 0

@[simp] theorem active_out : out.active = 0 := rfl

@[simp] theorem active_inOp : inOp.active = 1 := rfl

@[simp] theorem active_commit (g : Stage) : (commit g).active = 0 := rfl

@[simp] theorem busy_out : out.busy = 0 := rfl

@[simp] theorem busy_inOp : inOp.busy = 0 := rfl

@[simp] theorem busy_commit (g : Stage) : (commit g).busy = 1 := rfl

end Job

/-- The buffers in the order of the list from `bcache.head.next` on, the disks, the
log, and the processes.  `unlogged` marks a buffer modified and not yet passed to
`log_write`; `mem` holds the contents most recently stored for each block of the
root device. -/
structure State (P : Type*) where
  buf : Fin NBUF → Buf P
  order : List (Fin NBUF)
  disk : UInt32 → UInt32 → Block
  log : Log.State
  call : P → Call
  job : P → Job
  unlogged : Fin NBUF → Bool
  mem : UInt32 → Block

/-- A step of a process. -/
inductive Act (P : Type*) where
  | get (p : P) (dev b : UInt32)
  | lock (p : P)
  | fill (p : P)
  | store (p : P) (i : Fin NBUF) (d : Block)
  | logWrite (p : P) (i : Fin NBUF)
  | release (p : P) (i : Fin NBUF)
  | unref (p : P)
  | beginOp (p : P)
  | endOp (p : P)
  | commit (p : P)
  | finish (p : P)

variable {P : Type*} [DecidableEq P]

namespace State

variable (s : State P)

/-- Block `b` lies in the log. -/
def inLog (b : UInt32) : Prop := s.log.start ≤ b.toNat ∧ b.toNat < s.log.start + s.log.size

instance (b : UInt32) : Decidable (s.inLog b) := inferInstanceAs (Decidable (_ ∧ _))

/-- Buffer `i` holds block `b` of the root device. -/
def holds (i : Fin NBUF) (b : UInt32) : Prop := (s.buf i).dev = ROOTDEV ∧ (s.buf i).blockno = b

instance (i : Fin NBUF) (b : UInt32) : Decidable (s.holds i b) :=
  inferInstanceAs (Decidable (_ ∧ _))

/-- Buffer `i` becomes `b`. -/
def setBuf (i : Fin NBUF) (b : Buf P) : State P := { s with buf := update s.buf i b }

/-- Process `p` goes on to `c`. -/
def setCall (p : P) (c : Call) : State P := { s with call := update s.call p c }

/-- Process `p` goes on with `j`. -/
def setJob (p : P) (j : Job) : State P := { s with job := update s.job p j }

/-- The first loop of `bget`. -/
def lookup (dev b : UInt32) : Option (Fin NBUF) :=
  s.order.find? fun i => (s.buf i).dev = dev ∧ (s.buf i).blockno = b

/-- The second loop of `bget`, from the least recently used on. -/
def victim : Option (Fin NBUF) :=
  s.order.reverse.find? fun i => (s.buf i).refcnt = 0 ∧ (s.buf i).dirty = false

/-- `bget` under `bcache.lock`. -/
def bget (p : P) (dev b : UInt32) : Except String (State P) :=
  match s.lookup dev b with
  | some i =>
      .ok ((s.setBuf i { s.buf i with refcnt := (s.buf i).refcnt + 1 }).setCall p (.locking i))
  | none =>
      match s.victim with
      | some i =>
          .ok ((s.setBuf i { s.buf i with
            dev := dev, blockno := b, valid := false, dirty := false, refcnt := 1 }).setCall p
              (.locking i))
      | none => .error "bget: no buffers"

/-- The disk request of `iderw`: a dirty buffer is written, another is read. -/
def iderw (i : Fin NBUF) : State P :=
  let b := s.buf i
  if b.dirty then
    { s.setBuf i { b with valid := true, dirty := false } with
      disk := update s.disk b.dev (update (s.disk b.dev) b.blockno b.data) }
  else s.setBuf i { b with valid := true, data := s.disk b.dev b.blockno }

/-- The rest of `bread`, with buffer `i` locked. -/
def fill (p : P) (i : Fin NBUF) : State P :=
  ((if (s.buf i).valid then s else s.iderw i).setCall p .idle).setJob p ((s.job p).got i)

/-- The contents of buffer `i` become `d`, and `bwrite`. -/
def bwrite (i : Fin NBUF) (d : Block) : State P :=
  (s.setBuf i { s.buf i with data := d, dirty := true }).iderw i

/-- Process `p` may modify buffer `i`. -/
def mayStore (p : P) (i : Fin NBUF) : Prop :=
  s.call p = .idle ∧ s.job p = .inOp ∧ (s.buf i).lock = some p ∧ (s.buf i).dev = ROOTDEV ∧
    ¬ s.inLog (s.buf i).blockno

instance (p : P) (i : Fin NBUF) : Decidable (s.mayStore p i) :=
  inferInstanceAs (Decidable (_ ∧ _))

/-- A modification in place. -/
def store (i : Fin NBUF) (d : Block) : State P :=
  { s.setBuf i { s.buf i with data := d } with
    unlogged := update s.unlogged i true
    mem := update s.mem (s.buf i).blockno d }

/-- `log_write`. -/
def logWrite (i : Fin NBUF) : Except String (State P) :=
  (s.log.logWrite (s.buf i).blockno).map fun l =>
    { s.setBuf i { s.buf i with dirty := true } with
      log := l
      unlogged := update s.unlogged i false }

/-- The end of `brelse`: a buffer that no one uses goes to the front of the list. -/
def unref (p : P) (i : Fin NBUF) : State P :=
  { (s.setBuf i { s.buf i with refcnt := (s.buf i).refcnt - 1 }).setCall p .idle with
    order := if (s.buf i).refcnt - 1 = 0 then i :: s.order.erase i else s.order }

/-- A step of `commit` other than `bread` and `brelse`. -/
def commitStep (p : P) : Stage → Option (State P)
  | .start =>
      if 0 < s.log.lh.length then some (s.setJob p (.commit (.writeLog 0 .first)))
      else some (s.setJob p (.commit .done))
  | .writeLog tail .first =>
      if tail < s.log.lh.length then none else some (s.setJob p (.commit (.writeHead .read)))
  | .writeLog tail (.write x y) =>
      some ((s.bwrite x (s.buf y).data).setJob p (.commit (.writeLog tail (.release x y))))
  | .writeHead (.write x) =>
      some ((s.bwrite x (Log.writeHead s.log.lh (s.buf x).data)).setJob p
        (.commit (.writeHead (.release x))))
  | .installTrans tail .first =>
      if tail < s.log.lh.length then none else some (s.setJob p (.commit .clear))
  | .installTrans tail (.write x y) =>
      some ((s.bwrite y (s.buf x).data).setJob p (.commit (.installTrans tail (.release x y))))
  | .clear => some ({ s with log := s.log.committed }.setJob p (.commit (.eraseHead .read)))
  | .eraseHead (.write x) =>
      some ((s.bwrite x (Log.writeHead s.log.lh (s.buf x).data)).setJob p
        (.commit (.eraseHead (.release x))))
  | _ => none

/-- The effect of a step: `none` where it cannot be made, an error where the
kernel panics. -/
def step : Act P → Option (Except String (State P))
  | .get p dev b =>
      if s.call p = .idle ∧ (s.job p).mayGet s.log dev b then some (s.bget p dev b) else none
  | .lock p =>
      match s.call p with
      | .locking i =>
          if (s.buf i).lock = none then
            some (.ok ((s.setBuf i { s.buf i with lock := some p }).setCall p (.reading i)))
          else none
      | _ => none
  | .fill p =>
      match s.call p with
      | .reading i => some (.ok (s.fill p i))
      | _ => none
  | .store p i d => if s.mayStore p i then some (.ok (s.store i d)) else none
  | .logWrite p i => if s.mayStore p i then some (s.logWrite i) else none
  | .release p i =>
      if s.call p = .idle ∧ (s.buf i).lock = some p ∧ s.unlogged i = false then
        ((s.job p).released i).map fun j =>
          .ok (((s.setBuf i { s.buf i with lock := none }).setCall p (.releasing i)).setJob p j)
      else none
  | .unref p =>
      match s.call p with
      | .releasing i => some (.ok (s.unref p i))
      | _ => none
  | .beginOp p =>
      if s.call p = .idle ∧ s.job p = .out then
        s.log.beginOp.map fun l => .ok ({ s with log := l }.setJob p .inOp)
      else none
  | .endOp p =>
      if s.call p = .idle ∧ s.job p = .inOp ∧
          ∀ i, (s.buf i).lock = some p → s.unlogged i = false then
        some (s.log.endOp.map fun r =>
          { s with log := r.1 }.setJob p (if r.2 then .commit .start else .out))
      else none
  | .commit p =>
      match s.call p, s.job p with
      | .idle, .commit g => (s.commitStep p g).map .ok
      | _, _ => none
  | .finish p =>
      if s.call p = .idle ∧ s.job p = .commit .done then
        some (.ok ({ s with log := s.log.finish }.setJob p .out))
      else none

end State

/-! ### The invariant of the buffers -/

/-- The number of processes that hold the buffer's lock. -/
def Buf.holders (b : Buf P) : ℕ := if b.lock = none then 0 else 1

/-- References to buffer `i` of a call that does not hold its lock. -/
def Call.refs (i : Fin NBUF) : Call → ℕ
  | locking j => if i = j then 1 else 0
  | releasing j => if i = j then 1 else 0
  | _ => 0

namespace Call

variable (i j : Fin NBUF)

@[simp] theorem refs_idle : refs i idle = 0 := rfl

@[simp] theorem refs_reading : refs i (reading j) = 0 := rfl

@[simp] theorem refs_locking : refs i (locking j) = if i = j then 1 else 0 := rfl

@[simp] theorem refs_releasing : refs i (releasing j) = if i = j then 1 else 0 := rfl

end Call

/-- Every buffer is in the list; a block of the root device has one buffer; a dirty
buffer is valid, and so is a locked one whose `bread` has returned; `refcnt` counts
the calls that use the buffer. -/
structure Bufs [Fintype P] (s : State P) : Prop where
  order : ∀ i, i ∈ s.order
  unique : ∀ i j b, s.holds i b → s.holds j b → i = j
  dirty : ∀ i, (s.buf i).dirty = true → (s.buf i).valid = true
  locked : ∀ i p, (s.buf i).lock = some p → s.call p = .reading i ∨ (s.buf i).valid = true
  reading : ∀ p i, s.call p = .reading i → (s.buf i).lock = some p
  counted : ∀ i, (s.buf i).refcnt = (s.buf i).holders + ∑ p, (s.call p).refs i

variable [Fintype P] {s s' : State P}

namespace Bufs

omit [DecidableEq P] in
theorem congr (h : Bufs s) (hbuf : s'.buf = s.buf) (hord : s'.order = s.order)
    (hcall : s'.call = s.call) : Bufs s' := by
  obtain ⟨buf, order, disk, log, call, job, unlogged, mem⟩ := s'
  obtain rfl : buf = s.buf := hbuf
  obtain rfl : order = s.order := hord
  obtain rfl : call = s.call := hcall
  exact ⟨h.order, h.unique, h.dirty, h.locked, h.reading, h.counted⟩

variable {i : Fin NBUF}

omit [DecidableEq P] in
/-- A buffer with `refcnt = 0` is in no one's hands. -/
theorem of_refcnt (h : Bufs s) (hi : (s.buf i).refcnt = 0) :
    (s.buf i).lock = none ∧
      ∀ p, s.call p ≠ .locking i ∧ s.call p ≠ .reading i ∧ s.call p ≠ .releasing i := by
  have hc := h.counted i
  have hlock : (s.buf i).lock = none := by
    by_contra hl
    simp only [Buf.holders, if_neg hl] at hc
    omega
  refine ⟨hlock, fun p => ?_⟩
  have hle : (s.call p).refs i ≤ _ := le_sum (fun c => Call.refs i c) s.call p
  have hz : (s.call p).refs i = 0 := by omega
  refine ⟨fun hp => ?_, fun hp => ?_, fun hp => ?_⟩
  · simp [hp] at hz
  · rw [h.reading p i hp] at hlock
    cases hlock
  · simp [hp] at hz

/-- The references to buffer `i` after `p` has gone on to `c`. -/
theorem refs_setCall (s : State P) (p : P) (c : Call) (i : Fin NBUF) :
    ∑ q, (update s.call p c q).refs i + (s.call p).refs i =
      ∑ q, (s.call q).refs i + c.refs i :=
  sum_update (fun c => Call.refs i c) s.call p c

variable {p : P}

/-- A step that changes buffer `i` and the call of `p`: what it must show of that
buffer and that call. -/
theorem setBuf_setCall (h : Bufs s) {b : Buf P} {c : Call}
    (hkey : b.dev = ROOTDEV → ∀ j, s.holds j b.blockno → j = i)
    (hdirty : b.dirty = true → b.valid = true)
    (hlocked : ∀ q, b.lock = some q →
      (if q = p then c else s.call q) = .reading i ∨ b.valid = true)
    (hreading : ∀ q, (if q = p then c else s.call q) = .reading i → b.lock = some q)
    (hp : ∀ j, j ≠ i → s.call p ≠ .reading j ∧ c ≠ .reading j ∧ c.refs j = (s.call p).refs j)
    (hcount : b.refcnt + (s.buf i).holders + (s.call p).refs i =
      (s.buf i).refcnt + b.holders + c.refs i) :
    Bufs ((s.setBuf i b).setCall p c) := by
  have hbuf : ∀ j, ((s.setBuf i b).setCall p c).buf j = if j = i then b else s.buf j :=
    fun j => update_apply ..
  have hcall : ∀ q, ((s.setBuf i b).setCall p c).call q = if q = p then c else s.call q :=
    fun q => update_apply ..
  refine ⟨h.order, fun j k x hj hk => ?_, fun j hj => ?_, fun j q hj => ?_, fun q j hq => ?_,
    fun j => ?_⟩
  · simp only [State.holds, hbuf] at hj hk
    split_ifs at hj hk with hji hki hki
    · rw [hji, hki]
    · rw [hji]
      exact (hkey hj.1 k ⟨hk.1, hk.2.trans hj.2.symm⟩).symm
    · rw [hki]
      exact hkey hk.1 j ⟨hj.1, hj.2.trans hk.2.symm⟩
    · exact h.unique j k x hj hk
  · rw [hbuf] at hj ⊢
    split_ifs at hj ⊢
    · exact hdirty hj
    · exact h.dirty j hj
  · rw [hbuf] at hj ⊢
    rw [hcall]
    by_cases hji : j = i
    · subst hji
      rw [if_pos rfl] at hj ⊢
      exact hlocked q hj
    · rw [if_neg hji] at hj ⊢
      rcases h.locked j q hj with hr | hv
      · have hqp : q ≠ p := by
          rintro rfl
          exact (hp j hji).1 hr
        rw [if_neg hqp]
        exact .inl hr
      · exact .inr hv
  · rw [hcall] at hq
    rw [hbuf]
    by_cases hji : j = i
    · subst hji
      rw [if_pos rfl]
      exact hreading q hq
    · rw [if_neg hji]
      split_ifs at hq with hqp
      · exact absurd hq (hp j hji).2.1
      · exact h.reading q j hq
  · have hsum := refs_setCall s p c j
    have hc := h.counted j
    simp only [hbuf]
    change _ = _ + ∑ q, (update s.call p c q).refs j
    split_ifs with hji
    · subst hji
      omega
    · have := (hp j hji).2.2
      omega

variable {b dev : UInt32}

omit [DecidableEq P] [Fintype P] in
/-- The buffer `bget` finds holds the block. -/
theorem lookup_eq_some (h : s.lookup dev b = some i) :
    (s.buf i).dev = dev ∧ (s.buf i).blockno = b := by
  simpa using List.find?_some h

omit [DecidableEq P] in
/-- When `bget` finds no buffer, none holds the block. -/
theorem lookup_eq_none (hs : Bufs s) (h : s.lookup dev b = none) (i : Fin NBUF) :
    ¬ ((s.buf i).dev = dev ∧ (s.buf i).blockno = b) := by
  simpa using List.find?_eq_none.1 h i (hs.order i)

omit [DecidableEq P] [Fintype P] in
/-- The buffer `bget` recycles is unused and clean. -/
theorem victim_eq_some (h : s.victim = some i) :
    (s.buf i).refcnt = 0 ∧ (s.buf i).dirty = false := by
  simpa using List.find?_some h

variable (h : Bufs s)

include h

omit [DecidableEq P] in
/-- A buffer that may be modified is valid. -/
theorem valid_of_mayStore (hm : s.mayStore p i) : (s.buf i).valid = true := by
  rcases h.locked i p hm.2.2.1 with hr | hv
  · rw [hm.1] at hr
    cases hr
  · exact hv

theorem hit (hp : s.call p = .idle) :
    Bufs ((s.setBuf i { s.buf i with refcnt := (s.buf i).refcnt + 1 }).setCall p (.locking i)) := by
  refine h.setBuf_setCall (fun hd j hj => h.unique _ _ _ hj ⟨hd, rfl⟩) (h.dirty i)
    (fun q hq => ?_) (fun q hq => ?_) (fun j hj => ?_) ?_
  · split_ifs with hqp
    · subst hqp
      rcases h.locked i q hq with hr | hv
      · rw [hp] at hr
        cases hr
      · exact .inr hv
    · exact h.locked i q hq
  · split_ifs at hq
    exact h.reading q i hq
  · simp [hp, hj]
  · simp only [hp, Call.refs_idle, Call.refs_locking, Buf.holders, if_true]
    omega

/-- A buffer recycled by `bget`. -/
theorem recycle (hp : s.call p = .idle) (hlook : s.lookup dev b = none) (hv : s.victim = some i) :
    Bufs ((s.setBuf i { s.buf i with
      dev := dev, blockno := b, valid := false, dirty := false, refcnt := 1 }).setCall p
        (.locking i)) := by
  obtain ⟨hz, -⟩ := victim_eq_some hv
  obtain ⟨hlock, hno⟩ := h.of_refcnt hz
  refine h.setBuf_setCall
    (fun hd j hj => absurd ⟨hj.1.trans hd.symm, hj.2⟩ (h.lookup_eq_none hlook j))
    (by simp) (fun q hq => ?_) (fun q hq => ?_) (fun j hj => ?_) ?_
  · rw [show _ = none from hlock] at hq
    cases hq
  · split_ifs at hq
    exact absurd hq (hno q).2.1
  · simp [hp, hj]
  · simp only [hp, hz, Call.refs_idle, Call.refs_locking, Buf.holders, if_true]
    omega

theorem lock (hp : s.call p = .locking i) (hl : (s.buf i).lock = none) :
    Bufs ((s.setBuf i { s.buf i with lock := some p }).setCall p (.reading i)) := by
  refine h.setBuf_setCall (fun hd j hj => h.unique _ _ _ hj ⟨hd, rfl⟩) (h.dirty i)
    (fun q hq => ?_) (fun q hq => ?_) (fun j hj => ?_) ?_
  · rw [Option.some.inj hq, if_pos rfl]
    exact .inl rfl
  · split_ifs at hq with hqp
    · rw [hqp]
    · have := h.reading q i hq
      rw [hl] at this
      cases this
  · simp [hp, hj, Ne.symm hj]
  · simp only [hp, hl, Call.refs, Buf.holders, if_true]
    simp

omit [DecidableEq P] in
/-- A buffer that stays where it is, with its lock and `refcnt`. -/
theorem setBuf {b : Buf P} (hdev : b.dev = (s.buf i).dev)
    (hno : b.blockno = (s.buf i).blockno) (hlock : b.lock = (s.buf i).lock)
    (href : b.refcnt = (s.buf i).refcnt) (hdirty : b.dirty = true → b.valid = true)
    (hvalid : (s.buf i).valid = true → b.valid = true) : Bufs (s.setBuf i b) := by
  have hbuf : ∀ j, (s.setBuf i b).buf j = if j = i then b else s.buf j :=
    fun j => update_apply ..
  have hholds : ∀ j x, (s.setBuf i b).holds j x ↔ s.holds j x := fun j x => by
    simp only [State.holds, hbuf]
    split_ifs with hji
    · rw [hji, hdev, hno]
    · rfl
  refine ⟨h.order, fun j k x hj hk => h.unique j k x ((hholds j x).1 hj) ((hholds k x).1 hk),
    fun j hj => ?_, fun j q hj => ?_, fun q j hq => ?_, fun j => ?_⟩
  · rw [hbuf] at hj ⊢
    split_ifs at hj ⊢
    · exact hdirty hj
    · exact h.dirty j hj
  · rw [hbuf] at hj ⊢
    split_ifs at hj ⊢ with hji
    · subst hji
      exact (h.locked j q (hlock ▸ hj)).imp_right hvalid
    · exact h.locked j q hj
  · rw [hbuf]
    split_ifs with hji
    · subst hji
      exact hlock.trans (h.reading q j hq)
    · exact h.reading q j hq
  · rw [hbuf]
    split_ifs with hji
    · subst hji
      rw [href, Buf.holders, hlock]
      exact h.counted j
    · exact h.counted j

/-- `bread` returns with its buffer valid. -/
theorem idle (hp : s.call p = .reading i)
    (hv : (s.buf i).valid = true) : Bufs (s.setCall p .idle) := by
  have hcall : ∀ q, (s.setCall p .idle).call q = if q = p then .idle else s.call q :=
    fun q => update_apply ..
  refine ⟨h.order, h.unique, h.dirty, fun j q hj => ?_, fun q j hq => ?_, fun j => ?_⟩
  · rcases h.locked j q hj with hr | hv'
    · by_cases hqp : q = p
      · subst hqp
        rw [hp] at hr
        cases hr
        exact .inr hv
      · exact .inl (by rw [hcall, if_neg hqp]; exact hr)
    · exact .inr hv'
  · rw [hcall] at hq
    split_ifs at hq
    exact h.reading q j hq
  · have hsum := refs_setCall s p .idle j
    have hc := h.counted j
    rw [hp, Call.refs_reading, Call.refs_idle] at hsum
    change (s.buf j).refcnt = (s.buf j).holders + ∑ q, (update s.call p .idle q).refs j
    omega

theorem release (hp : s.call p = .idle) (hl : (s.buf i).lock = some p) :
    Bufs ((s.setBuf i { s.buf i with lock := none }).setCall p (.releasing i)) := by
  refine h.setBuf_setCall (fun hd j hj => h.unique _ _ _ hj ⟨hd, rfl⟩) (h.dirty i)
    (fun q hq => ?_) (fun q hq => ?_) (fun j hj => ?_) ?_
  · cases hq
  · split_ifs at hq with hqp
    have := h.reading q i hq
    rw [hl] at this
    exact absurd (Option.some.inj this).symm hqp
  · simp [hp, hj]
  · simp only [hp, hl, Call.refs, Buf.holders, if_true]
    simp

/-- The end of `brelse`. -/
theorem unref (hp : s.call p = .releasing i) : Bufs (s.unref p i) := by
  have hpos : 0 < (s.buf i).refcnt := by
    have hle : (s.call p).refs i ≤ _ := le_sum (fun c => Call.refs i c) s.call p
    have hc := h.counted i
    rw [hp, Call.refs_releasing, if_pos rfl] at hle
    omega
  have hb :
      Bufs ((s.setBuf i { s.buf i with refcnt := (s.buf i).refcnt - 1 }).setCall p .idle) := by
    refine h.setBuf_setCall (fun hd j hj => h.unique _ _ _ hj ⟨hd, rfl⟩) (h.dirty i)
      (fun q hq => ?_) (fun q hq => ?_) (fun j hj => ?_) ?_
    · split_ifs with hqp
      · subst hqp
        rcases h.locked i q hq with hr | hv
        · rw [hp] at hr
          cases hr
        · exact .inr hv
      · exact h.locked i q hq
    · split_ifs at hq
      exact h.reading q i hq
    · simp [hp, hj]
    · simp only [hp, Call.refs_idle, Call.refs_releasing, Buf.holders, if_true]
      omega
  refine ⟨fun j => ?_, hb.unique, hb.dirty, hb.locked, hb.reading, hb.counted⟩
  unfold State.unref
  dsimp only
  split_ifs
  · by_cases hji : j = i
    · exact hji ▸ List.mem_cons_self
    · exact List.mem_cons_of_mem _ ((List.mem_erase_of_ne hji).2 (h.order j))
  · exact h.order j

end Bufs

end Xv6.Bio
