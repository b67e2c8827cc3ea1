/-
# `kill` and `nice`

`proc.c`: `kill` and `nice` look for the first entry with the `pid`, whatever its state.
A reaped entry has `pid` 0, and a `fork` that fails leaves the `pid` of the process it
did not make; so both calls can find an unused entry, and `kill` then marks it.
`allocproc` does not clear the mark, and the next child is born with it
(`kill_finds_unused`).

`kill_nice_live` says that this is all that goes wrong: the calls act on live processes,
and children are born unmarked, as long as no call names the `pid` of an unused entry and
no `fork` fails whose new process was killed meanwhile.
-/

import Mathlib.Algebra.Order.Group.Int
import Xv6.Proc.Info

namespace Xv6.Ptable

open Function Lib Option State

variable {s s' : State} {p : Proc} {pid : ℤ} {i : Slot} {a : Act}

/-! ### What a step does to the marks -/

/-- What `kill`, `nice` and the life of an entry change. -/
def Proc.marks (p : Proc) : Kind × ℤ × ℤ × Bool := (p.state.kind, p.pid, p.nice, p.killed)

theorem marks_eq {k : Kind} {nice : ℤ} {b : Bool} :
    p.marks = (k, pid, nice, b) ↔ p.state.kind = k ∧ p.pid = pid ∧ p.nice = nice ∧
    p.killed = b := by
  simp only [Proc.marks, Prod.mk.injEq]

theorem marks_update {t : Slot → Proc} (h : p.marks = (t i).marks)
    (j : Slot) : (update t i p j).marks = (t j).marks := by
  rw [update_apply]
  split_ifs with hj
  · rw [h, hj]
  · rfl

theorem marks_wakeup1 (c : Option Chan) (t : Slot → Proc) (j : Slot) :
    (wakeup1 c t j).marks = (t j).marks := by
  unfold wakeup1
  split_ifs with h
  · simp only [Proc.marks, h.1, ProcState.kind]
  · rfl

theorem marks_reparent1 (cur : Slot) (r : Option Slot) (t : Slot → Proc) (p j : Slot) :
    (reparent1 cur r t p j).marks = (t j).marks := by
  have hset : ∀ j, (update t p { t p with parent := r } j).marks = (t j).marks :=
    marks_update rfl
  unfold reparent1
  dsimp only
  split_ifs
  · exact (marks_wakeup1 _ _ j).trans (hset j)
  · exact hset j
  · rfl

theorem marks_reparent (cur : Slot) (r : Option Slot) (t : Slot → Proc) (j : Slot) :
    (reparent cur r t j).marks = (t j).marks := by
  unfold reparent
  generalize List.finRange NPROC = l
  induction l generalizing t with
  | nil => rfl
  | cons p l ih => exact (ih _).trans (marks_reparent1 cur r t p j)

/-- The section of `exit` under the lock makes one zombie. -/
theorem marks_exitLocked (i j : Slot) : ((s.exitLocked i).proc j).marks =
    if j = i then (.zombie, (s.proc i).pid, (s.proc i).nice, (s.proc i).killed)
    else (s.proc j).marks := by
  have h : ∀ j, _ = (s.proc j).marks := fun j =>
    (marks_reparent i s.initproc (wakeup1 ((s.proc i).parent.map .proc) s.proc) j).trans
      (marks_wakeup1 _ _ j)
  unfold exitLocked
  dsimp only
  generalize reparent i s.initproc _ = t at h ⊢
  rw [update_apply]
  split_ifs with hj
  · have hi := h i
    simp only [Proc.marks, Prod.mk.injEq] at hi
    simp only [Proc.marks, hi.2.1, hi.2.2.1, hi.2.2.2]
    rfl
  · exact h j

/-- What a step does to the marks of entry `j`. -/
inductive Touch (s : State) (a : Act) (s' : State) (j : Slot) : Prop
  | same (h : (s'.proc j).marks = (s.proc j).marks)
  | alloc (ha : (∃ ok, a = .userinit ok) ∨ ∃ i, a = .allocproc i) (hk : s.kind j = .unused)
      (h : (s'.proc j).marks = (.embryo, s.nextpid, 0, (s.proc j).killed))
  | born (h₀ : (∃ ok, a = .userinit ok) ∧ s.boot = .run j ∨
        ∃ i ok, a = .fork i ok ∧ s.pc i = .fork j .run)
      (h : (s'.proc j).marks = (.alive, (s.proc j).pid, (s.proc j).nice, (s.proc j).killed))
  | failed (i : Slot) (k : ForkAt) (ha : a = .fork i false) (hp : s.pc i = .fork j k)
      (hk : k.early = true)
      (h : (s'.proc j).marks = (.unused, (s.proc j).pid, (s.proc j).nice, (s.proc j).killed))
  | inherited (i : Slot) (ok : Bool) (ha : a = .fork i ok) (hp : s.pc i = .fork j .nice)
      (h : (s'.proc j).marks = (s.kind j, (s.proc j).pid, (s.proc i).nice, (s.proc j).killed))
  | exited (hk : s.kind j = .alive)
      (h : (s'.proc j).marks = (.zombie, (s.proc j).pid, (s.proc j).nice, (s.proc j).killed))
  | reaped (hk : s.kind j = .zombie) (h : (s'.proc j).marks = (.unused, 0, (s.proc j).nice, false))
  | killed (i : Slot) (ha : a = .kill i (s.proc j).pid)
      (h : (s'.proc j).marks = (s.kind j, (s.proc j).pid, (s.proc j).nice, true))
  | fault (ha : a = .fault j) (hk : s.kind j = .alive)
      (h : (s'.proc j).marks = (s.kind j, (s.proc j).pid, (s.proc j).nice, true))
  | niced (i : Slot) (pid priority : ℤ) (ha : a = .nice i pid priority)
      (hr : ¬ (priority < -20 ∨ 19 < priority)) (hf : (s.find fun p => p.pid = pid) = some j)
      (h : (s'.proc j).marks = (s.kind j, (s.proc j).pid, |priority|, (s.proc j).killed))

theorem Touch.of_set (hproc : s'.proc = update s.proc i p)
    (hi : (s'.proc i).marks = p.marks → Touch s a s' i) (j : Slot) : Touch s a s' j := by
  by_cases hj : j = i
  · subst hj
    exact hi (by rw [hproc, update_self])
  · exact .same (by rw [hproc, update_of_ne hj])

theorem touch_allocproc {s1 : State} {np : Slot} (h : s.allocproc = some (np, s1))
    (ha : (∃ ok, a = .userinit ok) ∨ ∃ i, a = .allocproc i) (hs : s'.proc = s1.proc) (j : Slot) :
    Touch s a s' j := by
  have hk := allocproc_unused h
  obtain ⟨i, -, he⟩ := map_eq_some_iff.1 h
  cases he
  exact .of_set hs (fun hm => .alloc ha hk hm) j

/-- **What a step does to the marks.** -/
theorem touch_step (hs : s.step a = some (.ok s')) (j : Slot) : Touch s a s' j := by
  cases effect_of_step hs with
  | start _ ha => exact touch_allocproc ha (.inl ⟨_, rfl⟩) (by rfl) j
  | kalloc | goto => exact .same rfl
  | setup | own => exact .same (marks_update (by rfl) j)
  | run hb =>
    refine .of_set (by rfl) (fun hm => ?_) j
    exact .born (.inl ⟨⟨_, rfl⟩, hb⟩) hm
  | set h =>
    exact .same (marks_update (by simp only [Proc.marks, h.kind, h.pid, h.nice, h.killed]) j)
  | wakeup => exact .same (marks_wakeup1 _ _ j)
  | fault hr =>
    refine .of_set (by rfl) (fun hm => ?_) j
    exact .fault rfl hr.alive hm
  | alloc _ _ ha => exact touch_allocproc ha (.inr ⟨_, rfl⟩) (by rfl) j
  | forkNext hp hw =>
    refine .of_set (by rfl) (fun hm => ?_) j
    simp only [Proc.marks, hw.state, hw.pid, hw.killed, hw.nice] at hm
    split_ifs at hm with hk
    · exact .inherited _ _ rfl (hk ▸ hp) hm
    · exact .same hm
  | forkFail hp hk =>
    refine .of_set (by rfl) (fun hm => ?_) j
    exact .failed _ _ rfl hp hk hm
  | forkRun hp =>
    refine .of_set (by rfl) (fun hm => ?_) j
    exact .born (.inr ⟨_, _, rfl, hp⟩) hm
  | @exitLocked i hr =>
    have hm := marks_exitLocked (s := s) i j
    split_ifs at hm with hj
    · subst hj
      exact .exited hr.alive hm
    · exact .same hm
  | reap _ _ hz =>
    have hzombie := find_eq_some hz
    simp only [decide_eq_true_eq] at hzombie
    unfold wait
    rw [hz]
    refine .of_set (by rfl) (fun hm => ?_) j
    exact .reaped (by rw [kind, hzombie.2]; rfl) hm
  | wait hr => exact .same (marks_update (by simp only [Proc.marks, hr.1, ProcState.kind]) j)
  | kill =>
    refine .of_set (by rfl) (fun hm => .killed _ rfl (hm.trans ?_)) j
    simp only [Proc.marks, kind]
    split_ifs with hsl
    · rw [hsl]
      rfl
    · rfl
  | nice _ _ hrange hf =>
    refine .of_set (by rfl) (fun hm => .niced _ _ _ rfl hrange hf (hm.trans ?_)) j
    simp only [Proc.marks, kind]
    split_ifs with hneg
    · rw [abs_of_neg hneg]
    · rw [abs_of_nonneg (not_lt.1 hneg)]

/-! ### Children are born unmarked -/

/-- A call of `kill` or `nice` names no unused entry, and no `fork` fails whose new process
has been killed. -/
def State.careful (s : State) : Act → Bool
  | .kill _ pid | .nice _ pid _ =>
      decide (∀ j, (s.proc j).pid = pid → (s.proc j).state ≠ .UNUSED)
  | .fork i false =>
      match s.pc i with
      | .fork np k => !(k.early && (s.proc np).killed)
      | _ => true
  | _ => true

/-- No unused entry is marked as killed. -/
def Unmarked (s : State) : Prop := ∀ j, s.kind j = .unused → (s.proc j).killed = false

theorem Unmarked.step (h : Unmarked s) (hs : s.step a = some (.ok s'))
    (ha : s.careful a = true) : Unmarked s' := by
  intro j hj
  change (s'.proc j).state.kind = .unused at hj
  cases touch_step hs j with
  | same hm | inherited i ok ha' hp hm | niced i pid priority ha' hr hf hm =>
    obtain ⟨hk, -, -, hkilled⟩ := marks_eq.1 hm
    rw [hkilled]
    exact h j (hk.symm.trans hj)
  | failed i k ha' hp hk hm =>
    subst ha'
    simp only [careful, hp, hk, Bool.true_and, Bool.not_eq_true'] at ha
    rw [(marks_eq.1 hm).2.2.2]
    exact ha
  | reaped hk hm => exact (marks_eq.1 hm).2.2.2
  | killed i ha' hm =>
    subst ha'
    simp only [careful, decide_eq_true_eq] at ha
    have hk := (marks_eq.1 hm).1.symm.trans hj
    exact absurd (kind_eq_unused.1 hk) (ha j rfl)
  | fault ha' hk hm =>
    have hk' := (marks_eq.1 hm).1.symm.trans hj
    rw [hk] at hk'
    cases hk'
  | alloc _ hk hm | born h0 hm | exited hk hm =>
    have := (marks_eq.1 hm).1.symm.trans hj
    cases this

theorem unmarked_of_reaches (h : Reaches (only State.step State.careful) State.init s) :
    Unmarked s :=
  h.inv (fun _ _ _ hi hs => hi.step (only_eq_some.1 hs).2 (only_eq_some.1 hs).1) fun _ _ => rfl

/-- The steps while process `np` is there, other than a `kill` that names its `pid` and a
fault of its own. -/
def spares (np : Slot) (pid : ℤ) (s : State) (a : Act) : Bool :=
  decide ((s.proc np).state ≠ .UNUSED) &&
    match a with
    | .kill _ p => decide (p ≠ pid)
    | .fault i => decide (i ≠ np)
    | _ => true

/-- A process is not marked as long as it is spared. -/
theorem killed_of_spares {np : Slot}
    (hs : Reaches (only State.step (spares np (s.proc np).pid)) s s')
    (hk : (s.proc np).killed = false) : (s'.proc np).killed = false := by
  refine (hs.inv (I := fun t => (t.proc np).killed = false ∧
    (t.kind np ≠ .unused → (t.proc np).pid = (s.proc np).pid)) (fun t a t' ht hstep => ?_)
    ⟨hk, fun _ => rfl⟩).1
  obtain ⟨hsp, hstep⟩ := only_eq_some.1 hstep
  simp only [spares, Bool.and_eq_true, decide_eq_true_eq] at hsp
  have hin : t.kind np ≠ .unused := fun hu => hsp.1 (kind_eq_unused.1 hu)
  have hpid := ht.2 hin
  cases touch_step hstep np with
  | same hm
  | born _ hm | failed _ _ _ _ _ hm | inherited _ _ _ _ hm | exited _ hm | niced _ _ _ _ _ _ hm =>
    obtain ⟨-, hp, -, hkilled⟩ := marks_eq.1 hm
    exact ⟨hkilled.trans ht.1, fun _ => hp.trans hpid⟩
  | alloc _ hu hm => exact absurd hu hin
  | reaped hz hm =>
    obtain ⟨hu, -, -, hkilled⟩ := marks_eq.1 hm
    exact ⟨hkilled, fun hne => absurd hu hne⟩
  | killed i ha hm =>
    subst ha
    exact absurd hpid (of_decide_eq_true hsp.2)
  | fault ha _ hm =>
    subst ha
    exact absurd rfl (of_decide_eq_true hsp.2)

/-! ### What the calls return -/

/-- A call that looks for a `pid` that no unused entry has, and returns 0 if it finds it. -/
theorem lookup_returns (ha : ∀ j, (s.proc j).pid = pid → (s.proc j).state ≠ .UNUSED)
    (hsome : ∀ j, (s.find fun p => p.pid = pid) = some j → s'.pc i = .done 0)
    (hnone : (s.find fun p => p.pid = pid) = none → s' = s.goto i (.done (-1))) :
    (s'.pc i = .done 0 ↔ ∃ j, (s.proc j).state ≠ .UNUSED ∧ (s.proc j).pid = pid) ∧
      (s'.pc i ≠ .done 0 → s' = s.goto i (.done (-1))) := by
  cases hf : s.find fun p => p.pid = pid with
  | some j =>
    have hpid := find_eq_some hf
    simp only [decide_eq_true_eq] at hpid
    exact ⟨⟨fun _ => ⟨j, ha j hpid, hpid⟩, fun _ => hsome j hf⟩, fun h => absurd (hsome j hf) h⟩
  | none =>
    refine ⟨⟨fun h => ?_, ?_⟩, fun _ => hnone hf⟩
    · rw [hnone hf, pc_goto, if_pos rfl] at h
      exact absurd (Pc.done.inj h) (by decide)
    · rintro ⟨j, -, hj⟩
      have := List.find?_eq_none.1 hf j (List.mem_finRange j)
      simp only [hj, decide_true, not_true_eq_false] at this

/-- `kill` of a `pid` that no unused entry has. -/
theorem kill_returns (ha : s.careful (.kill i pid) = true)
    (hs : s.step (.kill i pid) = some (.ok s')) :
    (s'.pc i = .done 0 ↔ ∃ j, (s.proc j).state ≠ .UNUSED ∧ (s.proc j).pid = pid) ∧
      (s'.pc i ≠ .done 0 → s' = s.goto i (.done (-1))) := by
  simp only [careful, decide_eq_true_eq] at ha
  simp only [step] at hs
  split_ifs at hs
  cases hs
  unfold kill
  refine lookup_returns ha (fun j hf => ?_) fun hf => by rw [hf]
  rw [hf]
  exact (pc_goto ..).trans (if_pos rfl)

/-- `nice` of a `pid` that no unused entry has. -/
theorem nice_returns {priority : ℤ} (ha : s.careful (.nice i pid priority) = true)
    (hs : s.step (.nice i pid priority) = some (.ok s')) :
    (s'.pc i = .done 0 ↔ (-20 ≤ priority ∧ priority ≤ 19) ∧
        ∃ j, (s.proc j).state ≠ .UNUSED ∧ (s.proc j).pid = pid) ∧
      (s'.pc i ≠ .done 0 → s' = s.goto i (.done (-1))) := by
  simp only [careful, decide_eq_true_eq] at ha
  simp only [step] at hs
  split_ifs at hs
  cases hs
  unfold nice
  split
  · rename_i hr
    refine ⟨⟨fun h => ?_, fun h => absurd hr (by omega)⟩, fun _ => rfl⟩
    rw [pc_goto, if_pos rfl] at h
    exact absurd (Pc.done.inj h) (by decide)
  · rename_i hr
    rw [and_iff_right (show -20 ≤ priority ∧ priority ≤ 19 by omega)]
    refine lookup_returns ha (fun j hf => ?_) fun hf => by rw [hf]
    rw [hf]
    exact (pc_goto ..).trans (if_pos rfl)

/-- **`kill` and `nice` act on live processes, and children are born unmarked**, as long as no
call names the `pid` of an unused entry and no `fork` fails whose new process has been killed.
In every state of such a run:

* `kill` returns 0 exactly if a live process has the `pid`, and otherwise returns -1 and
  changes nothing;
* `nice` does so for a priority between -20 and 19, and returns -1 for any other;
* the process that `allocproc` starts is not marked as killed, and stays so while it is
  there until a `kill` names its `pid` or it faults. -/
theorem kill_nice_live (s : State) (h : Reaches (only State.step State.careful) State.init s) :
    (∀ i pid s', s.careful (.kill i pid) = true → s.step (.kill i pid) = some (.ok s') →
      (s'.pc i = .done 0 ↔ ∃ j, (s.proc j).state ≠ .UNUSED ∧ (s.proc j).pid = pid) ∧
      (s'.pc i ≠ .done 0 → s' = s.goto i (.done (-1)))) ∧
    (∀ i pid priority s', s.careful (.nice i pid priority) = true →
      s.step (.nice i pid priority) = some (.ok s') →
      (s'.pc i = .done 0 ↔ (-20 ≤ priority ∧ priority ≤ 19) ∧
        ∃ j, (s.proc j).state ≠ .UNUSED ∧ (s.proc j).pid = pid) ∧
      (s'.pc i ≠ .done 0 → s' = s.goto i (.done (-1)))) ∧
    ∀ i np s₁, s.step (.allocproc i) = some (.ok s₁) → s₁.pc i = .fork np .kalloc →
      ∀ s₂, Reaches (only State.step (spares np (s₁.proc np).pid)) s₁ s₂ →
        (s₂.proc np).killed = false := by
  refine ⟨fun i pid s' => kill_returns, fun i pid priority s' => nice_returns,
    fun i np s₁ hs hp s₂ hr => killed_of_spares hr ?_⟩
  have hu := unmarked_of_reaches h
  simp only [step] at hs
  split_ifs at hs with hrun
  split at hs
  · rename_i np' s₀ ha
    cases hs
    have hpc : (s₀.goto i (.fork np' .kalloc)).pc i = .fork np .kalloc := hp
    rw [pc_goto, if_pos rfl] at hpc
    obtain rfl : np' = np := (Pc.fork.inj hpc).1
    have hk := hu np' (allocproc_unused ha)
    obtain ⟨j, -, he⟩ := map_eq_some_iff.1 ha
    cases he
    change (update s.proc np' _ np').killed = false
    rw [update_self]
    exact hk
  · cases hs
    rw [pc_goto, if_pos rfl] at hp
    cases hp

/-- The hypotheses of `kill_nice_live` are satisfiable: init forks a child and kills it with
its `pid`. -/
theorem kill_nice_live_child :
    ∃ s s' : State, Reaches (only State.step State.careful) State.init s ∧
      s.careful (.kill 0 2) = true ∧ s.step (.kill 0 2) = some (.ok s') ∧ s'.pc 0 = .done 0 := by
  have hrun : Leads (only step careful) init (bootRun ++ forkRun 0 ++ [.enter 0]) fun s =>
      s.careful (.kill 0 2) = true ∧ (s.runs 0 ∧ s.pc 0 = .entered) ∧
        (s.proc 1).state = .RUNNABLE ∧ (s.proc 1).pid = 2 := by decide +kernel
  obtain ⟨s, h, hc, hr, hlive, hpid⟩ := hrun.reaches
  have hstep : s.step (.kill 0 2) = some (.ok (s.kill 0 2)) := if_pos hr
  refine ⟨s, s.kill 0 2, h, hc, hstep, ?_⟩
  exact ((kill_nice_live s h).1 0 2 _ hc hstep).1.2 ⟨1, by rw [hlive]; decide, hpid⟩

/-- **`kill` finds unused entries, and the next child is born killed.**  Init calls `kill(0)`,
which returns 0 though no live process has `pid` 0; the child it then forks, with `pid` 2, is
marked as killed, though 0 is the only `pid` that any `kill` has named. -/
theorem kill_finds_unused :
    ∃ s s' s₂ : State, Reaches State.step State.init s ∧
      (∀ j, (s.proc j).state ≠ .UNUSED → (s.proc j).pid ≠ 0) ∧
      s.step (.kill 0 0) = some (.ok s') ∧ s'.pc 0 = .done 0 ∧
      Reaches State.step s' s₂ ∧ (s₂.proc 1).state = .RUNNABLE ∧ (s₂.proc 1).pid = 2 ∧
        (s₂.proc 1).killed = true ∧ s₂.kills = [0] := by
  have hrun : Leads step init (bootRun ++ [.enter 0]) fun s =>
      (∀ j, (s.proc j).state ≠ .UNUSED → (s.proc j).pid ≠ 0) ∧
        (s.runs 0 ∧ s.pc 0 = .entered) ∧ (s.kill 0 0).pc 0 = .done 0 ∧
        Leads step (s.kill 0 0) ([.leave 0] ++ forkRun 0) fun s₂ =>
          (s₂.proc 1).state = .RUNNABLE ∧ (s₂.proc 1).pid = 2 ∧
            (s₂.proc 1).killed = true ∧ s₂.kills = [0] := by decide +kernel
  obtain ⟨s, h, hno, hr, hdone, hrun⟩ := hrun.reaches
  obtain ⟨s₂, h₂, hp⟩ := Leads.reaches hrun
  exact ⟨s, s.kill 0 0, s₂, h, hno, if_pos hr, hdone, h₂, hp⟩

end Xv6.Ptable
