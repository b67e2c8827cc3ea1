/-
# The links of the buffer cache

`bio.c` with the list of buffers as it is in memory: `head` and the `NBUF` buffers
with their `prev` and `next`, which `binit` sets up, `bget` follows in both
directions, and `brelse` reassigns.  The steps are those of `Xv6.Bio.Cache` on a
buffer: a section under `bcache.lock`, the wait for a sleep-lock, a disk request
(only its effect on the flags; it is taken to succeed), and the flags that
`log_write` and `bwrite` set.

`buffer_cache` is the representation invariant, over every run of any number of
processes: the links are one cycle through all buffers (`Lib.Cycle`), a block has
at most one buffer, `refcnt` counts the calls that use a buffer, and a buffer that
is in use or dirty keeps its block.
-/

import Xv6.Bio.Cache
import Xv6.Lib.Cycle

namespace Xv6.Bio
namespace Lru

open Except Function Lib List Option
open UInt32 (ofNat ofNat_add)

/-- `struct buf`, without its contents and its links. -/
structure Buf (P : Type*) where
  valid : Bool
  dirty : Bool
  dev : UInt32
  blockno : UInt32
  lock : Option P
  refcnt : UInt32

/-- The links of `head` (`none`) and of the buffers, the buffers, and the processes. -/
structure State (P : Type*) where
  links : Links (Fin NBUF)
  buf : Fin NBUF → Buf P
  call : P → Call

/-- A step of a process. -/
inductive Act (P : Type*) where
  | get (p : P) (dev b : UInt32)
  | lock (p : P)
  | fill (p : P)
  | logWrite (p : P) (i : Fin NBUF)
  | bwrite (p : P) (i : Fin NBUF)
  | release (p : P) (i : Fin NBUF)
  | unref (p : P)

/-- `binit`, whatever the links are before. -/
def binit (k : Links (Fin NBUF)) : Links (Fin NBUF) :=
  (finRange NBUF).foldl (fun k b => k.pushFront (some b)) k.reset

/-- After `binit`; the buffers are zero. -/
def State.start {P : Type*} (k : Links (Fin NBUF)) : State P where
  links := binit k
  buf _ := ⟨false, false, 0, 0, none, 0⟩
  call _ := .idle

set_option linter.unusedSectionVars false

variable {P : Type*} [DecidableEq P]

namespace State

variable (s : State P)

/-- Buffer `i` becomes `b`. -/
def setBuf (i : Fin NBUF) (b : Buf P) : State P := { s with buf := update s.buf i b }

/-- Process `p` goes on to `c`. -/
def setCall (p : P) (c : Call) : State P := { s with call := update s.call p c }

/-- The first loop of `bget`; `none` if it does not end. -/
def lookup (dev b : UInt32) : Option (Option (Fin NBUF)) :=
  search s.links.next (fun i => (s.buf i).dev = dev ∧ (s.buf i).blockno = b) (NBUF + 1)
    (s.links.next none)

/-- The second loop of `bget`. -/
def victim : Option (Option (Fin NBUF)) :=
  search s.links.prev (fun i => (s.buf i).refcnt = 0 ∧ (s.buf i).dirty = false) (NBUF + 1)
    (s.links.prev none)

/-- `bget` under `bcache.lock`. -/
def bget (p : P) (dev b : UInt32) : Option (Except String (State P)) :=
  match s.lookup dev b with
  | none => none
  | some (some i) =>
      some (.ok ((s.setBuf i { s.buf i with refcnt := (s.buf i).refcnt + 1 }).setCall p
        (.locking i)))
  | some none =>
      match s.victim with
      | none => none
      | some (some i) =>
          some (.ok ((s.setBuf i { s.buf i with
            dev := dev, blockno := b, valid := false, dirty := false, refcnt := 1 }).setCall p
              (.locking i)))
      | some none => some (.error "bget: no buffers")

/-- What `iderw` leaves of the flags. -/
def iderw (b : Buf P) : Buf P := { b with valid := true, dirty := false }

/-- The section of `brelse` under `bcache.lock`. -/
def unref (p : P) (i : Fin NBUF) : State P :=
  { (s.setBuf i { s.buf i with refcnt := (s.buf i).refcnt - 1 }).setCall p .idle with
    links := if (s.buf i).refcnt - 1 = 0 then (s.links.unlink (some i)).pushFront (some i)
      else s.links }

/-- The effect of a step: `none` where it cannot be made or does not end, an error
where the kernel panics. -/
def step : Act P → Option (Except String (State P))
  | .get p dev b => if s.call p = .idle then s.bget p dev b else none
  | .lock p =>
      match s.call p with
      | .locking i =>
          if (s.buf i).lock = none then
            some (.ok ((s.setBuf i { s.buf i with lock := some p }).setCall p (.reading i)))
          else none
      | _ => none
  | .fill p =>
      match s.call p with
      | .reading i =>
          some (.ok ((s.setBuf i (if (s.buf i).valid then s.buf i else iderw (s.buf i))).setCall p
            .idle))
      | _ => none
  | .logWrite p i =>
      if s.call p = .idle ∧ (s.buf i).lock = some p then
        some (.ok (s.setBuf i { s.buf i with dirty := true }))
      else none
  | .bwrite p i =>
      if s.call p = .idle then
        if (s.buf i).lock =
          some p then some (.ok (s.setBuf i (iderw { s.buf i with dirty := true })))
        else some (.error "bwrite")
      else none
  | .release p i =>
      if s.call p = .idle then
        if (s.buf i).lock = some p then
          some (.ok ((s.setBuf i { s.buf i with lock := none }).setCall p (.releasing i)))
        else some (.error "brelse")
      else none
  | .unref p =>
      match s.call p with
      | .releasing i => some (.ok (s.unref p i))
      | _ => none

/-- The block of buffer `i`. -/
def block (i : Fin NBUF) : UInt32 × UInt32 := ((s.buf i).dev, (s.buf i).blockno)

/-- The calls that hold buffer `i` or wait for it, between `bget` and the end of
`brelse`. -/
def users [Fintype P] (i : Fin NBUF) : ℕ :=
  (if (s.buf i).lock = none then 0 else 1) + ∑ p, (s.call p).refs i

end State

/-- The representation invariant. -/
structure Sound [Fintype P] (s : State P) : Prop where
  cycle : ∃ l, Cycle s.links l ∧ ∀ i, i ∈ l
  unique : ∀ i j, (s.buf i).dev ≠ 0 → s.block i = s.block j → i = j
  counted : ∀ i, (s.buf i).refcnt = UInt32.ofNat (s.users i)

variable [Fintype P] {s s' : State P}
  {i : Fin NBUF} {b : Buf P} {p : P} {l : List (Fin NBUF)}

/-- What a step does to the links, the blocks and the counts. -/
structure Moved (s s' : State P) : Prop where
  links : s'.links = s.links ∨
    ∃ i, s'.links = (s.links.unlink (some i)).pushFront (some i)
  blocks : s'.block = s.block ∨ ∃ i d, (s.buf i).refcnt = 0 ∧ (s.buf i).dirty = false ∧
    (∀ j, s.block j ≠ d) ∧ s'.block = update s.block i d
  counts : ∀ i, (s'.buf i).refcnt + UInt32.ofNat (s.users i) =
    (s.buf i).refcnt + UInt32.ofNat (s'.users i)

/-- `binit` makes one cycle of all buffers. -/
theorem cycle_binit (k : Links (Fin NBUF)) : ∃ l, Cycle (binit k) l ∧ ∀ i, i ∈ l := by
  have hfold : ∀ (bs l : List (Fin NBUF)) (k : Links (Fin NBUF)), Cycle k l →
      (bs.reverse ++ l).Nodup →
      Cycle (bs.foldl (fun k b => k.pushFront (some b)) k) (bs.reverse ++ l) := by
    intro bs
    induction bs with
    | nil => exact fun l k h _ => h
    | cons b bs ih =>
      intro l k h hnodup
      rw [reverse_cons, append_assoc] at hnodup ⊢
      refine ih (b :: l) _ (h.pushFront fun hb => ?_) hnodup
      exact (nodup_cons.1 (nodup_append.1 hnodup).2.1).1 hb
  refine ⟨_, hfold (finRange NBUF) [] _ cycle_reset ?_, fun i => ?_⟩
  · rw [append_nil, nodup_reverse]
    exact nodup_finRange NBUF
  · rw [append_nil, mem_reverse]
    exact mem_finRange i

theorem users_set (i : Fin NBUF) (b : Buf P) (p : P) (c : Call) (j : Fin NBUF) :
    ((s.setBuf i b).setCall p c).users j + (s.call p).refs j +
        (if j = i then if (s.buf i).lock = none then 0 else 1 else 0) =
      s.users j + c.refs j + if j = i then if b.lock = none then 0 else 1 else 0 := by
  have hsum := sum_update (Call.refs j) s.call p c
  simp only [State.users, State.setBuf, State.setCall, update_apply s.buf]
  by_cases hj : j = i
  · subst hj
    simp only [if_true]
    omega
  · simp only [if_neg hj]
    omega

/-- A step on buffer `i` that moves neither links nor blocks. -/
theorem counts_set {c : Call}
    (hold : ∀ j ≠ i, (s.call p).refs j = 0) (hnew : ∀ j ≠ i, c.refs j = 0)
    (hi : b.refcnt +
        ofNat ((if (s.buf i).lock = none then 0 else 1) + (s.call p).refs i) =
      (s.buf i).refcnt + ofNat ((if b.lock = none then 0 else 1) + c.refs i))
        (j : Fin NBUF) :
    (((s.setBuf i b).setCall p c).buf j).refcnt + ofNat (s.users j) =
      (s.buf j).refcnt + ofNat (((s.setBuf i b).setCall p c).users j) := by
  have husers := users_set (s := s) i b p c j
  by_cases hj : j = i
  · subst hj
    rw [show ((s.setBuf j b).setCall p c).buf j = b from update_self ..]
    simp only [if_true] at husers
    have hcast := congrArg ofNat husers
    simp only [ofNat_add] at hcast hi ⊢
    grind
  · rw [show ((s.setBuf i b).setCall p c).buf j = s.buf j from update_of_ne hj ..]
    simp only [if_neg hj, hold j hj, hnew j hj] at husers
    rw [show ((s.setBuf i b).setCall p c).users j = s.users j by omega]

/-- The first loop of `bget` ends; it searches the list from the front. -/
theorem lookup_eq (h : Cycle s.links l) (dev b : UInt32) :
    s.lookup dev b =
      some (l.find? fun i => (s.buf i).dev = dev ∧ (s.buf i).blockno = b) := by
  have hlen := h.nodup.length_le_card
  rw [Fintype.card_fin] at hlen
  exact h.search_next (Nat.lt_succ_of_le hlen)

/-- So does the second, from the back. -/
theorem victim_eq (h : Cycle s.links l) :
    s.victim =
      some (l.reverse.find? fun i => (s.buf i).refcnt = 0 ∧ (s.buf i).dirty = false) := by
  have hlen := h.nodup.length_le_card
  rw [Fintype.card_fin] at hlen
  exact h.search_prev (Nat.lt_succ_of_le hlen)

/-- What `bget` can do: it finds a buffer of the block, or it gives the block to a
buffer that is not in use because no buffer has it, or it panics. -/
theorem bget_cases (h : Cycle s.links l) (hall : ∀ i, i ∈ l) (p : P) (dev b : UInt32) :
    (∃ i, s.bget p dev b = some (.ok ((s.setBuf i
        { s.buf i with refcnt := (s.buf i).refcnt + 1 }).setCall p (.locking i)))) ∨
    (∃ i, (s.buf i).refcnt = 0 ∧ (s.buf i).dirty = false ∧ (∀ j, s.block j ≠ (dev, b)) ∧
      s.bget p dev b = some (.ok ((s.setBuf i { s.buf i with
        dev := dev, blockno := b, valid := false, dirty := false, refcnt := 1 }).setCall p
          (.locking i)))) ∨
    (∀ i, (s.buf i).refcnt = 0 → (s.buf i).dirty = true) ∧
      s.bget p dev b = some (.error "bget: no buffers") := by
  simp only [State.bget, lookup_eq h, victim_eq h]
  cases hfind : l.find? _ with
  | some i => exact .inl ⟨i, rfl⟩
  | none =>
    have hno : ∀ j, s.block j ≠ (dev, b) := by
      intro j hj
      obtain ⟨hdev, hblock⟩ := Prod.mk.inj hj
      have := find?_eq_none.1 hfind j (hall j)
      simp [hdev, hblock] at this
    cases hvictim : l.reverse.find? _ with
    | some i =>
      have hi := find?_some hvictim
      rw [decide_eq_true_eq] at hi
      exact .inr (.inl ⟨i, hi.1, hi.2, hno, rfl⟩)
    | none =>
      refine .inr (.inr ⟨fun i hi => ?_, rfl⟩)
      have := find?_eq_none.1 hvictim i (mem_reverse.2 (hall i))
      simpa [hi] using this

/-- A step on buffer `i` that moves neither links nor blocks. -/
theorem moved_set {c : Call}
    (hdev : b.dev = (s.buf i).dev) (hblock : b.blockno = (s.buf i).blockno)
    (hold : ∀ j ≠ i, (s.call p).refs j = 0) (hnew : ∀ j ≠ i, c.refs j = 0)
    (hi : b.refcnt +
        ofNat ((if (s.buf i).lock = none then 0 else 1) + (s.call p).refs i) =
      (s.buf i).refcnt + ofNat ((if b.lock = none then 0 else 1) + c.refs i)) :
    Moved s ((s.setBuf i b).setCall p c) where
  links := .inl rfl
  blocks := by
    refine .inl (funext fun j => ?_)
    by_cases hj : j = i
    · subst hj
      rw [State.block, show ((s.setBuf j b).setCall p c).buf j = b from update_self ..,
        hdev, hblock]
      rfl
    · rw [State.block,
        show ((s.setBuf i b).setCall p c).buf j = s.buf j from update_of_ne hj ..]
      rfl
  counts := counts_set hold hnew hi

/-- A step of a process outside `bread` and `brelse` that changes flags of buffer `i`. -/
theorem moved_setBuf (hp : s.call p = .idle) (hdev : b.dev = (s.buf i).dev)
    (hblock : b.blockno = (s.buf i).blockno) (hlock : b.lock = (s.buf i).lock)
    (hrefcnt : b.refcnt = (s.buf i).refcnt) : Moved s (s.setBuf i b) := by
  have hself : (s.setBuf i b).setCall p .idle = s.setBuf i b := by
    rw [State.setCall, ← hp]
    exact congrArg (State.mk _ _) (update_eq_self p s.call)
  rw [← hself]
  refine moved_set hdev hblock (fun j _ => by rw [hp, Call.refs_idle]) (fun _ _ => rfl) ?_
  rw [hp, hlock, hrefcnt]

theorem step_moved (h : Cycle s.links l) (hall : ∀ i, i ∈ l) {a : Act P}
    (hstep : s.step a = some (.ok s')) : Moved s s' := by
  cases a with
  | get p dev b =>
    simp only [State.step, ite_none_right_eq_some] at hstep
    obtain ⟨hp, hbget⟩ := hstep
    rcases bget_cases h hall p dev b with ⟨i, hi⟩ | ⟨i, hrefcnt, hdirty, hno, hi⟩ | ⟨-, hi⟩
    · rw [hi, some.injEq, ok.injEq] at hbget
      subst hbget
      refine moved_set rfl rfl (fun j hj => by simp [hp]) (fun j hj => if_neg hj) ?_
      simp only [hp, Call.refs_idle, Call.refs_locking, if_true, ofNat_add]
      grind
    · rw [hi, some.injEq, ok.injEq] at hbget
      subst hbget
      refine ⟨.inl rfl, .inr ⟨i, (dev, b), hrefcnt, hdirty, hno, ?_⟩, ?_⟩
      · refine funext fun j => ?_
        by_cases hj : j = i
        · subst hj
          simp [State.block, State.setBuf, State.setCall]
        · simp [State.block, State.setBuf, State.setCall, hj]
      · refine counts_set (fun j hj => by simp [hp]) (fun j hj => if_neg hj) ?_
        simp only [hp, hrefcnt, Call.refs_idle, Call.refs_locking, if_true, ofNat_add]
        grind
    · rw [hi] at hbget
      cases hbget
  | lock p =>
    simp only [State.step] at hstep
    split at hstep
    · rename_i i hp
      rw [ite_none_right_eq_some, some.injEq, ok.injEq] at hstep
      obtain ⟨hlock, rfl⟩ := hstep
      refine moved_set rfl rfl (fun j hj => by simp [hp, hj]) (fun _ _ => rfl) ?_
      simp [hp, hlock]
    · cases hstep
  | fill p =>
    simp only [State.step] at hstep
    split at hstep
    · rename_i i hp
      rw [some.injEq, ok.injEq] at hstep
      subst hstep
      by_cases hvalid : (s.buf i).valid = true
      · rw [if_pos hvalid]
        refine moved_set rfl rfl (fun j hj => by simp [hp]) (fun _ _ => rfl) ?_
        simp [hp]
      · rw [if_neg hvalid]
        refine moved_set rfl rfl (fun j hj => by simp [hp]) (fun _ _ => rfl) ?_
        rw [hp]
        rfl
    · cases hstep
  | logWrite p i =>
    simp only [State.step, ite_none_right_eq_some, some.injEq, ok.injEq] at hstep
    obtain ⟨⟨hp, -⟩, rfl⟩ := hstep
    exact moved_setBuf hp rfl rfl rfl rfl
  | bwrite p i =>
    simp only [State.step, ite_none_right_eq_some] at hstep
    obtain ⟨hp, hstep⟩ := hstep
    split_ifs at hstep
    · rw [some.injEq, ok.injEq] at hstep
      subst hstep
      exact moved_setBuf hp rfl rfl rfl rfl
    · cases hstep
  | release p i =>
    simp only [State.step, ite_none_right_eq_some] at hstep
    obtain ⟨hp, hstep⟩ := hstep
    split_ifs at hstep with hlock
    · rw [some.injEq, ok.injEq] at hstep
      subst hstep
      refine moved_set rfl rfl (fun j hj => by simp [hp]) (fun j hj => if_neg hj) ?_
      simp [hp, hlock]
    · cases hstep
  | unref p =>
    simp only [State.step] at hstep
    split at hstep
    · rename_i i hp
      rw [some.injEq, ok.injEq] at hstep
      subst hstep
      have hset : Moved s ((s.setBuf i
          { s.buf i with refcnt := (s.buf i).refcnt - 1 }).setCall p .idle) := by
        refine moved_set rfl rfl (fun j hj => by simp [hp, hj]) (fun _ _ => rfl) ?_
        simp only [hp, Call.refs_idle, Call.refs_releasing, if_true, ofNat_add]
        grind
      refine ⟨?_, hset.blocks, hset.counts⟩
      simp only [State.unref]
      split_ifs
      · exact .inr ⟨i, rfl⟩
      · exact .inl rfl
    · cases hstep

theorem Sound.step (h : Sound s) {a : Act P} (hstep : s.step a = some (.ok s')) : Sound s' := by
  obtain ⟨⟨l, hcycle, hall⟩, hunique, hcounted⟩ := h
  obtain ⟨hlinks, hblocks, hcounts⟩ := step_moved hcycle hall hstep
  refine ⟨?_, ?_, fun i => ?_⟩
  · rcases hlinks with hlinks | ⟨i, hlinks⟩
    · exact ⟨l, hlinks ▸ hcycle, hall⟩
    · refine ⟨i :: l.erase i, hlinks ▸ (hcycle.unlink (hall i)).pushFront ?_, fun j => ?_⟩
      · exact hcycle.nodup.not_mem_erase
      · by_cases hj : j = i
        · exact hj ▸ mem_cons_self
        · exact mem_cons_of_mem _ ((mem_erase_of_ne hj).2 (hall j))
  · rcases hblocks with hblocks | ⟨k, d, -, -, hno, hblocks⟩
    · intro i j hdev hij
      have hi : s'.block i = s.block i := congrFun hblocks i
      rw [hblocks] at hij
      exact hunique i j (fun h0 => hdev ((congrArg Prod.fst hi).trans h0)) hij
    · intro i j hdev hij
      have hi := congrFun hblocks i
      have hj := congrFun hblocks j
      rw [update_apply] at hi hj
      rw [hi, hj] at hij
      split_ifs at hi hj hij with hik hjk
      · exact hik.trans hjk.symm
      · exact absurd hij.symm (hno j)
      · exact absurd hij (hno i)
      · exact hunique i j (fun h0 => hdev ((congrArg Prod.fst hi).trans h0)) hij
  · have := hcounts i
    rw [hcounted i] at this
    grind

/-- A process uses a buffer by at most one call besides the one that holds its lock. -/
theorem users_le (s : State P) (i : Fin NBUF) : s.users i ≤ Fintype.card P + 1 := by
  have hrefs : ∀ p ∈ Finset.univ, (s.call p).refs i ≤ 1 := by
    intro p _
    cases s.call p with
    | idle | reading => exact Nat.zero_le 1
    | locking j | releasing j =>
      simp only [Call.refs]
      split_ifs <;> omega
  have hsum := Finset.sum_le_card_nsmul Finset.univ _ 1 hrefs
  rw [Finset.card_univ, smul_eq_mul, mul_one] at hsum
  rw [State.users]
  split_ifs <;> omega

theorem sound_start (k : Links (Fin NBUF)) : Sound (State.start k : State P) where
  cycle := cycle_binit k
  unique := fun _ _ hdev _ => absurd rfl hdev
  counted := fun i => by simp [State.start, State.users]

/-- **The representation invariant of the buffer cache.**  After `binit` and any number of
steps of any number of processes: `head` and the buffers are one cycle with every buffer in
it once, along which `prev` and `next` undo each other; a block of a device other than 0
has at most one buffer; `refcnt` is the number of the calls that hold the buffer or wait
for it, as a `uint`; `bget` ends; and no step gives a buffer that is in use or dirty another
block. -/
theorem buffer_cache (k : Links (Fin NBUF)) (hrun : Reaches State.step (State.start k) s) :
    (∃ l, Cycle s.links l ∧ ∀ i, i ∈ l) ∧
    (∀ x, s.links.prev (s.links.next x) = x ∧ s.links.next (s.links.prev x) = x) ∧
    (∀ i j, (s.buf i).dev ≠ 0 → s.block i = s.block j → i = j) ∧
    (∀ i, (s.buf i).refcnt = UInt32.ofNat (s.users i) ∧
      (Fintype.card P + 1 < 2 ^ 32 → (s.buf i).refcnt.toNat = s.users i)) ∧
    (∀ p dev b, (s.bget p dev b).isSome) ∧
    ∀ a s' i, s.step a = some (.ok s') → (s.buf i).refcnt ≠ 0 ∨ (s.buf i).dirty = true →
      s'.block i = s.block i := by
  obtain ⟨⟨l, hcycle, hall⟩, hunique, hcounted⟩ :=
    hrun.inv (fun _ _ _ h => Sound.step h) (sound_start k)
  have hmem : ∀ x, x ∈ none :: l.map some := by
    intro x
    cases x with
    | none => exact mem_cons_self
    | some i => exact mem_cons_of_mem _ (mem_map_of_mem (hall i))
  refine ⟨⟨l, hcycle, hall⟩, fun x => ⟨hcycle.prev_next x (hmem x), (hcycle.prev_mem (hmem x)).2⟩,
    hunique, fun i => ⟨hcounted i, fun hcard => ?_⟩, fun p dev b => ?_, ?_⟩
  · have hle := users_le s i
    rw [hcounted i]
    exact UInt32.toNat_ofNat_of_lt' (hle.trans_lt hcard)
  · rcases bget_cases hcycle hall p dev b with ⟨i, hi⟩ | ⟨i, -, -, -, hi⟩ | ⟨-, hi⟩ <;> rw [hi] <;>
      rfl
  · intro a s' i hstep hi
    rcases (step_moved hcycle hall hstep).blocks with hblocks | ⟨j, d, hrefcnt, hdirty, -, hblocks⟩
    · rw [hblocks]
    · have hne : i ≠ j := by
        rintro rfl
        rcases hi with hi | hi
        · exact hi hrefcnt
        · rw [hdirty] at hi
          cases hi
      rw [hblocks, update_of_ne hne]

/-- Two processes read a block; the second waits for the first, which marks the buffer dirty
and releases it. -/
def twoReaders : List (Act (Fin 2)) :=
  [.get 0 1 5, .lock 0, .fill 0, .get 1 1 5, .logWrite 0 0, .release 0 0, .unref 0, .lock 1,
    .fill 1, .release 1 0, .unref 1, .get 0 1 6]

/-- The hypothesis of `buffer_cache` is satisfiable. -/
theorem buffer_cache_twoReaders : ∃ s : State (Fin 2),
    runSteps State.step (State.start ⟨id, id⟩) twoReaders = some s ∧
      ∀ i j, (s.buf i).dev ≠ 0 → s.block i = s.block j → i = j := by
  have hsome : (runSteps State.step (State.start ⟨id, id⟩) twoReaders).isSome = true := by
    decide +kernel
  obtain ⟨s, hs⟩ := isSome_iff_exists.1 hsome
  exact ⟨s, hs, (buffer_cache ⟨id, id⟩ (reaches_of_runSteps hs)).2.2.1⟩

end Lru
end Xv6.Bio
