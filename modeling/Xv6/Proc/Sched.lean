/-
# Scheduling and priorities

`proc.c`: the choice made by `scheduler`, `yield`, and the priorities set with `nice`
and passed on by `fork`.

The scheduler takes the first entry with the smallest `nice` (`best_eq_some`).  So a
process that yields is chosen again if no other one is better or stands before it with
the same value (`yield_gives_way_iff`).

`nice` keeps the size of the priority and its sign apart (`Follows`), and the scheduler
looks at the size alone.  `scheduler_follows_iff` says for which requests the choice is
the one that was asked for.
-/

import Mathlib.Data.List.Induction
import Xv6.Proc.Kill

namespace Xv6.Ptable

open Function Lib List Option State

variable {s s' : State} {i np : Slot} {k : ForkAt} {a : Act}

/-! ### The choice of the scheduler -/

/-- Of the entries in `l`, the scheduler takes `b`: the first one of the smallest `nice`. -/
def IsBest (s : State) (l : List Slot) : Option Slot → Prop
  | none => ∀ j ∈ l, (s.proc j).state ≠ .RUNNABLE
  | some i => i ∈ l ∧ (s.proc i).state = .RUNNABLE ∧ ∀ j ∈ l, (s.proc j).state = .RUNNABLE →
      (s.proc i).nice < (s.proc j).nice ∨ (s.proc i).nice = (s.proc j).nice ∧ i ≤ j

/-- One round of the loop. -/
theorem IsBest.better {l : List Slot} {b : Option Slot} {p : Slot} (h : IsBest s l b)
    (hp : ∀ j ∈ l, j < p) : IsBest s (l ++ [p]) (s.better b p) := by
  unfold State.better
  split_ifs with hrun
  · cases b with
    | none =>
      refine ⟨mem_append_right l (mem_singleton_self p), hrun, fun j hj hjrun => ?_⟩
      rcases mem_append.1 hj with hj | hj
      · exact absurd hjrun (h j hj)
      · rw [mem_singleton.1 hj]
        exact .inr ⟨rfl, le_rfl⟩
    | some q =>
      obtain ⟨hq, hqrun, hmin⟩ := h
      dsimp only
      split_ifs with hlt
      · refine ⟨mem_append_right l (mem_singleton_self p), hrun, fun j hj hjrun => ?_⟩
        rcases mem_append.1 hj with hj | hj
        · rcases hmin j hj hjrun with h | h
          · exact .inl (hlt.trans h)
          · exact .inl (h.1 ▸ hlt)
        · rw [mem_singleton.1 hj]
          exact .inr ⟨rfl, le_rfl⟩
      · refine ⟨mem_append_left _ hq, hqrun, fun j hj hjrun => ?_⟩
        rcases mem_append.1 hj with hj | hj
        · exact hmin j hj hjrun
        · rw [mem_singleton.1 hj]
          rcases (not_lt.1 hlt).lt_or_eq with h | h
          · exact .inl h
          · exact .inr ⟨h, (hp q hq).le⟩
  · cases b with
    | none =>
      intro j hj
      rcases mem_append.1 hj with hj | hj
      · exact h j hj
      · rw [mem_singleton.1 hj]
        exact hrun
    | some q =>
      refine ⟨mem_append_left _ h.1, h.2.1, fun j hj hjrun => ?_⟩
      rcases mem_append.1 hj with hj | hj
      · exact h.2.2 j hj hjrun
      · rw [mem_singleton.1 hj] at hjrun
        exact absurd hjrun hrun

/-- The loop over entries in order. -/
theorem isBest_foldl {l : List Slot} (hl : l.Pairwise (· < ·)) :
    IsBest s l (l.foldl s.better none) := by
  induction l using reverseRecOn with
  | nil => exact fun j hj => absurd hj not_mem_nil
  | append_singleton l p ih =>
    rw [pairwise_append] at hl
    rw [foldl_append]
    exact (ih hl.1).better fun j hj => hl.2.2 j hj p (mem_singleton_self p)

theorem isBest_best : IsBest s (finRange NPROC) s.best :=
  isBest_foldl (pairwise_lt_finRange NPROC)

/-- None is chosen only if none is `RUNNABLE`. -/
theorem best_eq_none (h : s.best = none) (j : Slot) : (s.proc j).state ≠ .RUNNABLE := by
  have hb := isBest_best (s := s)
  rw [h] at hb
  exact hb j (mem_finRange j)

/-- **The scheduler takes the first entry with the smallest `nice`.** -/
theorem best_eq_some : s.best = some i ↔ (s.proc i).state = .RUNNABLE ∧
    ∀ j, (s.proc j).state = .RUNNABLE →
      (s.proc i).nice < (s.proc j).nice ∨ (s.proc i).nice = (s.proc j).nice ∧ i ≤ j := by
  have hb := isBest_best (s := s)
  constructor
  · intro h
    rw [h] at hb
    exact ⟨hb.2.1, fun j => hb.2.2 j (mem_finRange j)⟩
  · rintro ⟨hrun, hmin⟩
    cases h : s.best with
    | none => exact absurd hrun (best_eq_none h i)
    | some k =>
      rw [h] at hb
      have h1 := hmin k hb.2.1
      have h2 := hb.2.2 i (mem_finRange i) hrun
      rw [Fin.le_def] at h1 h2
      exact congrArg some (Fin.ext (by omega))

/-! ### `yield` -/

/-- **A process that yields gives way if another one is better or comes first.**  After
process `p` has yielded, the next choice of the scheduler is another process exactly if some
`RUNNABLE` process has a smaller `nice`, or has the same one and stands before `p` in the
table. -/
theorem yield_gives_way_iff (s s' : State) (p : Slot) (hs : s.step (.yield p) = some (.ok s')) :
    (∃ i, s'.best = some i ∧ i ≠ p) ↔ ∃ q, (s.proc q).state = .RUNNABLE ∧
      ((s.proc q).nice < (s.proc p).nice ∨ (s.proc q).nice = (s.proc p).nice ∧ q < p) := by
  simp only [step] at hs
  split_ifs at hs with hrun
  cases hs
  have hp : ∀ q, (s.proc q).state = .RUNNABLE → q ≠ p := fun q h he => by
    rw [he, hrun.1] at h
    cases h
  have hself : (s.set p { s.proc p with state := .RUNNABLE }).proc p =
      { s.proc p with state := .RUNNABLE } := update_self ..
  have hother : ∀ j ≠ p, (s.set p { s.proc p with state := .RUNNABLE }).proc j = s.proc j :=
    fun j hj => update_of_ne hj ..
  generalize s.set p { s.proc p with state := .RUNNABLE } = t at hself hother ⊢
  constructor
  · rintro ⟨i, hi, hne⟩
    obtain ⟨hirun, hmin⟩ := best_eq_some.1 hi
    have := hmin p (by rw [hself])
    rw [hself, hother i hne] at this
    rw [hother i hne] at hirun
    exact ⟨i, hirun, this.imp_right fun h => ⟨h.1, h.2.lt_of_ne hne⟩⟩
  · rintro ⟨q, hqrun, hbetter⟩
    cases hi : t.best with
    | none => exact absurd (by rw [hself]) (best_eq_none hi p)
    | some i =>
      refine ⟨i, rfl, ?_⟩
      rintro rfl
      have := (best_eq_some.1 hi).2 q (by rw [hother q (hp q hqrun)]; exact hqrun)
      rw [hself, hother q (hp q hqrun)] at this
      rcases hbetter with hlt | ⟨heq, hlt⟩
      · exact absurd hlt (by dsimp only at this; omega)
      · rcases this with h | h
        · exact h.ne heq.symm
        · exact absurd hlt h.2.not_gt

/-- The hypotheses of `yield_gives_way_iff` are satisfiable, with both sides true: init forks a
child and sleeps in `wait`, the child runs and kills init, and then it yields. -/
theorem yield_gives_way_child :
    ∃ s s' : State, s.step (.yield 1) = some (.ok s') ∧
      (s.proc 0).state = .RUNNABLE ∧ (s.proc 0).nice = (s.proc 1).nice ∧
        ∃ i, s'.best = some i ∧ i ≠ 1 := by
  have hrun : (runSteps step init (bootRun ++ forkRun 0 ++
      [.enter 0, .wait 0, .schedule, .enter 1, .kill 1 1])).map (fun s =>
      decide ((s.proc 0).state = .RUNNABLE ∧ (s.proc 0).nice = (s.proc 1).nice ∧ s.runs 1)) =
        some true := by decide +kernel
  obtain ⟨s, -, hp⟩ := map_eq_some_iff.1 hrun
  obtain ⟨h₀, hnice, h₁⟩ := of_decide_eq_true hp
  have hs : s.step (.yield 1) = some (.ok (s.set 1 { s.proc 1 with state := .RUNNABLE })) :=
    if_pos h₁
  exact ⟨s, _, hs, h₀, hnice, (yield_gives_way_iff s _ 1 hs).2
    ⟨0, h₀, .inr ⟨hnice, by decide⟩⟩⟩

/-- **A process can be chosen again at every tick.**  Init forks a child with the same `nice`
and yields: the scheduler chooses init again, though the child is `RUNNABLE`, and it does so
each time init yields. -/
theorem yield_reselects_init :
    ∃ s s' : State, Reaches State.step State.init s ∧ s.step (.yield 0) = some (.ok s') ∧
      (s.proc 1).state = .RUNNABLE ∧ (s.proc 1).nice = (s.proc 0).nice ∧ s'.best = some 0 ∧
        ∃ s'', s'.step .schedule = some (.ok s'') ∧ s''.proc = s.proc := by
  have hrun : Leads step init (bootRun ++ forkRun 0) fun s =>
      (s.proc 1).state = .RUNNABLE ∧ (s.proc 1).nice = (s.proc 0).nice ∧ s.runs 0 ∧
        (s.set 0 { s.proc 0 with state := .RUNNABLE }).best = some 0 := by decide +kernel
  obtain ⟨s, h, h₁, hnice, h₀, hb⟩ := hrun.reaches
  have hstep : s.step (.yield 0) = some (.ok (s.set 0 { s.proc 0 with state := .RUNNABLE })) :=
    if_pos h₀
  generalize ht : s.set 0 { s.proc 0 with state := .RUNNABLE } = t at hb hstep
  refine ⟨s, t, h, hstep, h₁, hnice, hb,
    t.set 0 { t.proc 0 with state := .RUNNING }, by simp only [step, hb, map_some], ?_⟩
  subst ht
  funext j
  by_cases hj : j = 0
  · subst hj
    simp only [State.set, update_self, ← h₀.1]
  · simp only [State.set, update_of_ne hj]

/-! ### Requested priorities -/

/-- A process table with what has been asked for: `req` is the priority requested for the
process in each entry, `own` says that `nice` was called on it since it was allocated. -/
structure Asked where
  table : State
  req : Slot → ℤ
  own : Slot → Bool

namespace Asked

/-- Nothing has been asked for. -/
def init : Asked := ⟨State.init, fun _ => 0, fun _ => false⟩

/-- A new process in entry `np`. -/
def born (t : Asked) (np : Slot) : Asked :=
  { t with req := update t.req np 0, own := update t.own np false }

/-- What has been asked for after a step: a new process starts with 0, `fork` passes on the
request of the parent unless one was made for the child, and a successful `nice` is a
request. -/
def note (t : Asked) : Act → Asked
  | .userinit _ =>
      match t.table.boot, t.table.allocproc with
      | .start, some (p, _) => t.born p
      | _, _ => t
  | .allocproc _ =>
      match t.table.allocproc with
      | some (np, _) => t.born np
      | none => t
  | .fork i _ =>
      match t.table.pc i with
      | .fork np .nice => if t.own np then t else { t with req := update t.req np (t.req i) }
      | _ => t
  | .nice _ pid priority =>
      if priority < -20 ∨ 19 < priority then t
      else
        match t.table.find fun p => p.pid = pid with
        | some j =>
            { t with req := update t.req j priority, own := update t.own j true }
        | none => t
  | _ => t

/-- A step of the process table. -/
def step (t : Asked) (a : Act) : Option (Except String Asked) :=
  (t.table.step a).map fun r => r.map fun s' => { t.note a with table := s' }

/-- A call of `nice` names no process that `fork` is still making. -/
def settled (t : Asked) : Act → Bool
  | .nice _ pid _ => decide (∀ j, (t.table.proc j).pid = pid → (t.table.proc j).state ≠ .EMBRYO)
  | _ => true

end Asked

/-! ### Forks under way -/

/-- The entries that `fork` and `userinit` are making. -/
structure Forks (s : State) : Prop where
  embryo : ∀ i np k, s.pc i = .fork np k → s.kind np = .embryo
  owner : ∀ i j np k k', s.pc i = .fork np k → s.pc j = .fork np k' → i = j
  boot : ∀ p, s.boot = .kalloc p ∨ s.boot = .setup p ∨ s.boot = .run p →
    s.kind p = .embryo ∧ ∀ i k, s.pc i ≠ .fork p k

/-- A process that goes on elsewhere was not in `fork`. -/
theorem fork_goto {j : Slot} {c : Pc} (hc : ∀ np k, c ≠ .fork np k)
    (hp : (s.goto j c).pc i = .fork np k) : s.pc i = .fork np k := by
  rw [pc_goto] at hp
  split_ifs at hp
  · exact absurd hp (hc np k)
  · exact hp

/-- **A process in `fork` was there before**, or has just taken its entry. -/
theorem fork_step (hs : s.step a = some (.ok s')) (hp : s'.pc i = .fork np k) :
    (∃ k0, s.pc i = .fork np k0 ∧ ∀ ok, a = .fork i ok → s'.kind np = s.kind np) ∨
      a = .allocproc i ∧ s.kind np = .unused ∧ s'.kind np = .embryo := by
  cases effect_of_step hs with
  | start _ ha =>
    obtain ⟨q, -, he⟩ := map_eq_some_iff.1 ha
    cases he
    exact .inl ⟨k, hp, nofun⟩
  | kalloc | setup | run | wakeup | fault => exact .inl ⟨k, hp, nofun⟩
  | set h =>
    refine .inl ⟨k, hp, fun _ _ => ?_⟩
    rw [kind_set]
    split_ifs with hn
    · rw [hn]
      exact h.kind
    · rfl
  | goto _ _ hc =>
    refine .inl ⟨k, fork_goto (fun np k he => ?_) hp, fun _ _ => rfl⟩
    rw [he] at hc
    cases hc
  | own _ hf =>
    refine .inl ⟨k, fork_goto (s := s.set _ _) (fun np k he => ?_) hp, fun _ _ => ?_⟩
    · subst he
      cases hf
    · change (s.set _ _).kind np = _
      rw [kind_set]
      split_ifs with hn
      · rw [hn]
        rfl
      · rfl
  | @alloc j np' s1 _ _ ha =>
    have hp : (s1.goto j (.fork np' .kalloc)).pc i = .fork np k := hp
    have hu := allocproc_unused ha
    obtain ⟨q, -, he⟩ := map_eq_some_iff.1 ha
    cases he
    rw [pc_goto] at hp
    split_ifs at hp with hij
    · obtain ⟨rfl, -⟩ := Pc.fork.inj hp
      refine .inr ⟨hij ▸ rfl, hu, ?_⟩
      change (update s.proc np' _ np').state.kind = _
      rw [update_self]
      rfl
    · exact .inl ⟨k, hp, nofun⟩
  | @forkNext j np' ok k' m p hp' hw =>
    rw [pc_goto] at hp
    split_ifs at hp with hij
    · obtain ⟨rfl, -⟩ := Pc.fork.inj hp
      refine .inl ⟨k', hij ▸ hp', fun _ _ => ?_⟩
      change (s.set np' p).kind np' = _
      rw [kind_set, if_pos rfl, hw.state]
      rfl
    · exact .inl ⟨k, hp, fun ok' ha => absurd (Act.fork.inj ha).1.symm hij⟩
  | forkFail _ _ =>
    rw [pc_goto] at hp
    split_ifs at hp with hij
    exact .inl ⟨k, hp, fun ok' ha => absurd (Act.fork.inj ha).1.symm hij⟩
  | forkRun _ =>
    rw [pc_goto] at hp
    split_ifs at hp with hij
    exact .inl ⟨k, fork_goto (by simp) hp, fun ok' ha => absurd (Act.fork.inj ha).1.symm hij⟩
  | exitLocked =>
    exact .inl ⟨k, fork_goto (c := .user) (by simp) hp, nofun⟩
  | reap _ _ hz =>
    unfold wait at hp
    rw [hz] at hp
    exact .inl ⟨k, fork_goto (s := s.set _ _) (c := .done _) (by simp) hp, nofun⟩
  | wait | nice =>
    exact .inl ⟨k, fork_goto (s := s.set _ _) (by simp) hp, nofun⟩
  | kill =>
    exact .inl ⟨k, fork_goto (s := s.set _ _) (c := .done 0) (by simp) hp, nofun⟩

variable (h : Forks s) (hs : s.step a = some (.ok s'))

include h hs

/-- The entry that a `fork` under way is making stays as it is. -/
theorem Forks.kind_step {k0 : ForkAt} (hp : s'.pc i = .fork np k) (hp0 : s.pc i = .fork np k0) :
    s'.kind np = .embryo := by
  have hk := h.embryo i np k0 hp0
  have hown : ∀ ok, a = .fork i ok → s'.kind np = s.kind np := by
    rcases fork_step hs hp with ⟨-, -, h'⟩ | ⟨-, hu, -⟩
    · exact h'
    · rw [hk] at hu
      cases hu
  cases touch_step hs np with
  | born h0 hm =>
    rcases h0 with ⟨-, hb⟩ | ⟨j, ok, ha, hj⟩
    · exact absurd hp0 ((h.boot np (.inr (.inr hb))).2 i k0)
    · obtain rfl := h.owner i j np k0 _ hp0 hj
      exact (hown ok ha).trans hk
  | failed j k' ha hj hearly hm =>
    obtain rfl := h.owner i j np k0 _ hp0 hj
    exact (hown false ha).trans hk
  | alloc _ hu hm | exited hu hm | reaped hu hm =>
    rw [hk] at hu
    cases hu
  | same hm | inherited _ _ _ _ hm | killed _ _ hm | fault _ _ hm | niced _ _ _ _ _ _ hm =>
    exact (marks_eq.1 hm).1.trans hk

/-- The entry that `userinit` has taken stays as it is, until the boot is done. -/
theorem Forks.boot_step {p : Slot} (hb : s.boot = .kalloc p ∨ s.boot = .setup p ∨ s.boot = .run p)
    (hb' : s'.boot = .kalloc p ∨ s'.boot = .setup p ∨ s'.boot = .run p) :
    s'.kind p = .embryo ∧ ∀ i k, s'.pc i ≠ .fork p k := by
  obtain ⟨hk, hno⟩ := h.boot p hb
  refine ⟨?_, fun i k hp => ?_⟩
  · cases touch_step hs p with
    | born h0 hm =>
      rcases h0 with ⟨⟨ok, rfl⟩, hrun⟩ | ⟨j, ok, -, hj⟩
      · simp only [step, userinit, hrun] at hs
        cases hs
        simp at hb'
      · exact absurd hj (hno j _)
    | failed j k' ha hj hearly hm => exact absurd hj (hno j k')
    | alloc _ hu hm | exited hu hm | reaped hu hm =>
      rw [hk] at hu
      cases hu
    | same hm | inherited _ _ _ _ hm | killed _ _ hm | fault _ _ hm | niced _ _ _ _ _ _ hm =>
      exact (marks_eq.1 hm).1.trans hk
  · rcases fork_step hs hp with ⟨k0, hp0, -⟩ | ⟨-, hu, -⟩
    · exact hno i k0 hp0
    · rw [hk] at hu
      cases hu

/-- **Every step keeps the forks under way apart.** -/
theorem Forks.step : Forks s' where
  embryo i np k hp := by
    rcases fork_step hs hp with ⟨k0, hp0, -⟩ | ⟨-, -, he⟩
    · exact h.kind_step hs hp hp0
    · exact he
  owner i j np k k' hi hj := by
    rcases fork_step hs hi with ⟨k0, hi0, -⟩ | ⟨ha, hu, -⟩ <;>
      rcases fork_step hs hj with ⟨k1, hj0, -⟩ | ⟨ha', hu', -⟩
    · exact h.owner i j np k0 k1 hi0 hj0
    · rw [h.embryo i np k0 hi0] at hu'
      cases hu'
    · rw [h.embryo j np k1 hj0] at hu
      cases hu
    · exact Act.allocproc.inj (ha.symm.trans ha')
  boot p hb' := by
    cases effect_of_step hs with
    | @start _ q _ _ ha =>
      obtain rfl : q = p := by simpa using hb'
      have hu := allocproc_unused ha
      obtain ⟨r, -, he⟩ := map_eq_some_iff.1 ha
      cases he
      refine ⟨?_, fun i k hp => ?_⟩
      · change (update s.proc q _ q).state.kind = _
        rw [update_self]
        rfl
      · rw [h.embryo i q k hp] at hu
        cases hu
    | @kalloc _ q hb =>
      obtain rfl : q = p := by simpa using hb'
      exact h.boot_step hs (.inl hb) hb'
    | @setup _ q hb =>
      obtain rfl : q = p := by simpa using hb'
      exact h.boot_step hs (.inr (.inl hb)) hb'
    | run => simp at hb'
    | alloc _ _ ha =>
      obtain ⟨j, -, he⟩ := map_eq_some_iff.1 ha
      cases he
      exact h.boot_step hs hb' hb'
    | reap _ _ hz =>
      refine h.boot_step hs ?_ hb'
      unfold wait at hb'
      rwa [hz] at hb'
    | _ => exact h.boot_step hs hb' hb'

omit h hs

/-! ### The scheduler and the requests -/

/-- The table follows the requests: `nice` holds the size of what was asked for. -/
structure Follows (t : Asked) : Prop where
  forks : Forks t.table
  nice : ∀ j, (t.table.proc j).nice = |t.req j|
  fresh : ∀ i np k, t.table.pc i = .fork np k → t.own np = false

theorem follows_init : Follows Asked.init where
  forks := by
    refine ⟨fun _ _ _ h => ?_, fun _ _ _ _ _ h => ?_, fun _ h => ?_⟩
    · cases h
    · cases h
    · simp [Asked.init, init] at h
  nice _ := rfl
  fresh _ _ _ h := by cases h

/-- The steps that can change `nice`. -/
def Act.setsNice : Act → Bool
  | .userinit _ | .allocproc _ | .fork _ _ | .nice _ _ _ => true
  | _ => false

theorem nice_same (hs : s.step a = some (.ok s')) (ha : a.setsNice = false) (j : Slot) :
    (s'.proc j).nice = (s.proc j).nice := by
  cases touch_step hs j with
  | alloc h _ hm =>
    rcases h with ⟨ok, rfl⟩ | ⟨i, rfl⟩ <;> cases ha
  | inherited _ _ h _ hm | niced _ _ _ h _ _ hm =>
    rw [h] at ha
    cases ha
  | same hm | born _ hm | failed _ _ _ _ _ hm | exited _ hm | reaped _ hm | killed _ _ hm
  | fault _ _ hm => exact (marks_eq.1 hm).2.2.1

variable {t t' : Asked}

theorem Asked.note_of (ha : a.setsNice = false) : t.note a = t := by
  cases a <;> first | rfl | cases ha

theorem update_nice {f : Slot → Proc} {p : Proc} (hp : p.nice = (f i).nice) (j : Slot) :
    (update f i p j).nice = (f j).nice := by
  rw [update_apply]
  split_ifs with hj
  · rw [hj, hp]
  · rfl

/-- Only one step of `fork` sets `nice`. -/
theorem nice_forkStep {ok : Bool} (hk : k ≠ .nice) (j : Slot) :
    ((s.forkStep i np ok k).proc j).nice = (s.proc j).nice := by
  cases k
  case nice => exact absurd rfl hk
  case kalloc | copyuvm | files =>
    simp only [forkStep]
    split_ifs
    all_goals first | rfl | exact update_nice (by rfl) j
  all_goals exact update_nice (by rfl) j

/-- `nice` is 0 in a new entry. -/
theorem nice_allocproc (hn : ∀ j, (s.proc j).nice = |t.req j|)
    (ha : s.allocproc = some (np, s')) (j : Slot) : (s'.proc j).nice = |(t.born np).req j| := by
  obtain ⟨i, -, he⟩ := map_eq_some_iff.1 ha
  cases he
  change (update s.proc np _ j).nice = |update t.req np 0 j|
  rw [update_apply, update_apply]
  split_ifs
  · rfl
  · exact hn j

/-- **Every step keeps `nice` at the size of the request**, if `nice` is called on no process
that `fork` is still making. -/
theorem Follows.nice_step (h : Follows t) (hs : t.table.step a = some (.ok s')) (j : Slot) :
    (s'.proc j).nice = |(t.note a).req j| := by
  by_cases ha : a.setsNice = true
  case neg =>
    have ha : a.setsNice = false := by simpa using ha
    rw [Asked.note_of ha, nice_same hs ha]
    exact h.nice j
  cases a with
  | userinit ok =>
    simp only [step, userinit] at hs
    simp only [Asked.note]
    split at hs
    · rename_i hb
      obtain ⟨⟨p, s1⟩, h1, he⟩ := map_eq_some_iff.1 hs
      cases he
      rw [hb, h1]
      exact nice_allocproc h.nice h1 j
    · rename_i hb
      rw [hb]
      split_ifs at hs <;> cases hs
      exact h.nice j
    · rename_i hb
      rw [hb]
      split_ifs at hs <;> cases hs
      exact (update_nice (by rfl) j).trans (h.nice j)
    · rename_i p hb
      rw [hb]
      cases hs
      exact (update_nice (by rfl) j).trans (h.nice j)
    · cases hs
  | allocproc i =>
    simp only [step] at hs
    simp only [Asked.note]
    split_ifs at hs
    cases h1 : t.table.allocproc with
    | some p =>
      simp only [h1] at hs ⊢
      cases hs
      exact nice_allocproc h.nice h1 j
    | none =>
      simp only [h1] at hs ⊢
      cases hs
      exact h.nice j
  | fork i ok =>
    simp only [step] at hs
    split at hs
    · rename_i np k hp
      split_ifs at hs
      cases hs
      by_cases hk : k = .nice
      · subst hk
        simp only [Asked.note, hp, h.fresh i np _ hp, Bool.false_eq_true, if_false]
        change (update t.table.proc np _ j).nice = _
        rw [update_apply, update_apply]
        split_ifs
        · exact h.nice i
        · exact h.nice j
      · have hnote : t.note (.fork i ok) = t := by
          cases k <;> simp only [Asked.note, hp]
          exact absurd rfl hk
        rw [hnote, nice_forkStep hk]
        exact h.nice j
    · cases hs
  | nice i pid priority =>
    simp only [step] at hs
    split_ifs at hs
    cases hs
    unfold State.nice Asked.note
    dsimp only
    split
    · exact h.nice j
    · cases hf : t.table.find fun p => decide (p.pid = pid) with
      | some k =>
        change (update t.table.proc k _ j).nice = |update t.req k priority j|
        rw [update_apply, update_apply]
        split_ifs with hj hneg
        · exact (abs_of_neg hneg).symm
        · exact (abs_of_nonneg (not_lt.1 hneg)).symm
        · exact h.nice j
      | none => exact h.nice j
  | _ => cases ha

/-- **Every step keeps the table following the requests**, if `nice` is called on no process
that `fork` is still making. -/
theorem Follows.step (h : Follows t) (hs : t.step a = some (.ok t'))
    (ha : t.settled a = true) : Follows t' := by
  obtain ⟨r, hr, he⟩ := map_eq_some_iff.1 hs
  cases r with
  | error e => cases he
  | ok s' =>
    cases he
    clear hs
    rename' hr => hs
    refine ⟨h.forks.step hs, h.nice_step hs, fun i np k hp => ?_⟩
    change (t.note a).own np = false
    rcases fork_step hs hp with ⟨k0, hp0, -⟩ | ⟨rfl, hu, -⟩
    · have hown := h.fresh i np k0 hp0
      have hkind := h.forks.embryo i np k0 hp0
      have hborn : ∀ q, (t.born q).own np = false := fun q => by
        change update t.own q false np = false
        rw [update_apply]
        split_ifs
        · rfl
        · exact hown
      cases a with
      | userinit ok | allocproc j =>
        unfold Asked.note
        dsimp only
        split
        · exact hborn _
        · exact hown
      | fork j ok =>
        unfold Asked.note
        dsimp only
        split
        · split_ifs <;> exact hown
        · exact hown
      | nice j pid priority =>
        unfold Asked.note
        dsimp only
        split
        · exact hown
        · split
          · rename_i q hf
            have hpid := find_eq_some hf
            simp only [decide_eq_true_eq] at hpid
            simp only [Asked.settled, decide_eq_true_eq] at ha
            have hq : np ≠ q := by
              rintro rfl
              have := ha np hpid
              rw [kind] at hkind
              cases hst : (t.table.proc np).state <;> simp_all [ProcState.kind]
            change update t.own q true np = false
            rw [update_of_ne hq]
            exact hown
          · exact hown
      | _ => exact hown
    · simp only [step] at hs
      split_ifs at hs
      unfold Asked.note
      dsimp only
      cases h1 : t.table.allocproc with
      | some q =>
        obtain ⟨np', s1⟩ := q
        simp only [h1] at hs ⊢
        cases hs
        have hp : (s1.goto i (.fork np' .kalloc)).pc i = .fork np k := hp
        rw [pc_goto, if_pos rfl] at hp
        obtain ⟨rfl, -⟩ := Pc.fork.inj hp
        exact update_self ..
      | none =>
        simp only [h1] at hs
        cases hs
        rw [pc_goto, if_pos rfl] at hp
        cases hp

theorem follows_of_reaches (h : Reaches (only Asked.step Asked.settled) Asked.init t) : Follows t :=
  h.inv (fun _ _ _ hi hs => hi.step (only_eq_some.1 hs).2 (only_eq_some.1 hs).1) follows_init

/-- **For which requests the scheduler does what was asked.**  In every run in which `nice` is
called on no process that `fork` is still making, none is chosen only if none is `RUNNABLE`, and
the process chosen has the smallest requested priority of the `RUNNABLE` ones exactly if

* none of them has a negative request, or
* the negative requests among them are all one value `-m`, no other request is below `m`, and
  some process that asked for `-m` stands in the table before all that asked for `m`. -/
theorem scheduler_follows_iff (t : Asked)
    (h : Reaches (only Asked.step Asked.settled) Asked.init t) :
    (t.table.best = none → ∀ j, (t.table.proc j).state ≠ .RUNNABLE) ∧
    ((∀ i, t.table.best = some i →
        ∀ j, (t.table.proc j).state = .RUNNABLE → t.req i ≤ t.req j) ↔
      (∀ j, (t.table.proc j).state = .RUNNABLE → 0 ≤ t.req j) ∨
      ∃ i, (t.table.proc i).state = .RUNNABLE ∧ t.req i < 0 ∧
        ∀ j, (t.table.proc j).state = .RUNNABLE →
          (t.req j < 0 → t.req j = t.req i) ∧ (0 ≤ t.req j → -t.req i ≤ t.req j) ∧
            (t.req j = -t.req i → i < j)) := by
  have hn := (follows_of_reaches h).nice
  refine ⟨best_eq_none, fun hall => ?_, fun hcond i hi j hj => ?_⟩
  · by_contra hc
    rw [not_or] at hc
    obtain ⟨hneg, hno⟩ := hc
    rw [not_forall] at hneg
    obtain ⟨q, hq⟩ := hneg
    rw [Classical.not_imp, not_le] at hq
    obtain ⟨hq, hq₀⟩ := hq
    cases hb : t.table.best with
    | none => exact best_eq_none hb q hq
    | some i =>
      obtain ⟨hi, hmin⟩ := best_eq_some.1 hb
      have hle := hall i hb
      refine hno ⟨i, hi, (hle q hq).trans_lt hq₀, fun j hj => ?_⟩
      have hij := hle j hj
      have hiq := hle q hq
      have hm := hmin j hj
      rw [hn i, hn j, abs_of_neg (show t.req i < 0 by omega)] at hm
      refine ⟨fun hj₀ => ?_, fun hj₀ => ?_, fun he => ?_⟩
      · rw [abs_of_neg hj₀] at hm
        omega
      · rw [abs_of_nonneg hj₀] at hm
        omega
      · rw [abs_of_nonneg (by omega)] at hm
        have hne : i ≠ j := by
          rintro rfl
          omega
        rcases hm with hm | hm
        · omega
        · exact hm.2.lt_of_ne hne
  · obtain ⟨hirun, hmin⟩ := best_eq_some.1 hi
    rcases hcond with hpos | ⟨q, hq, hq₀, hrest⟩
    · have hm := hmin j hj
      rw [hn i, hn j, abs_of_nonneg (hpos i hirun), abs_of_nonneg (hpos j hj)] at hm
      omega
    · have hm := hmin q hq
      rw [hn i, hn q, abs_of_neg hq₀] at hm
      obtain ⟨hi₁, hi₂, hi₃⟩ := hrest i hirun
      obtain ⟨hj₁, hj₂, -⟩ := hrest j hj
      rcases lt_or_ge (t.req i) 0 with hi₀ | hi₀
      · have := hi₁ hi₀
        rcases lt_or_ge (t.req j) 0 with hj₀ | hj₀
        · have := hj₁ hj₀
          omega
        · omega
      · have := hi₂ hi₀
        rw [abs_of_nonneg hi₀] at hm
        rcases hm with hm | ⟨hm, hle⟩
        · omega
        · exact absurd (hi₃ hm) hle.not_gt

/-- The hypotheses of `scheduler_follows_iff` are satisfiable, with the second side true: init
forks a child, asks for priority 3 for it, and yields. -/
theorem scheduler_follows_child :
    ∃ t : Asked, Reaches (only Asked.step Asked.settled) Asked.init t ∧ t.req 1 = 3 ∧
      ∀ i, t.table.best = some i →
        ∀ j, (t.table.proc j).state = .RUNNABLE → t.req i ≤ t.req j := by
  have hrun : Leads (only Asked.step Asked.settled) Asked.init
      (bootRun ++ forkRun 0 ++ [.enter 0, .nice 0 2 3, .yield 0]) fun t =>
      t.req 1 = 3 ∧ ∀ j, 0 ≤ t.req j := by decide +kernel
  obtain ⟨t, h, h₁, hpos⟩ := hrun.reaches
  exact ⟨t, h, h₁, (scheduler_follows_iff t h).2.2 (.inl fun j _ => hpos j)⟩

/-- **A higher priority is taken for a lower one.**  Init forks a child, asks for priority -5 for
it, which `nice` grants, and yields: both are `RUNNABLE`, and the scheduler chooses init, whose
priority is 0. -/
theorem scheduler_prefers_zero :
    ∃ t : Asked, Reaches Asked.step Asked.init t ∧
      (t.table.proc 1).state = .RUNNABLE ∧ t.req 1 = -5 ∧ t.table.pc 0 = .done 0 ∧
        t.table.best = some 0 ∧ t.req 0 = 0 := by
  have hrun : Leads Asked.step Asked.init
      (bootRun ++ forkRun 0 ++ [.enter 0, .nice 0 2 (-5), .yield 0]) fun t =>
      (t.table.proc 1).state = .RUNNABLE ∧ t.req 1 = -5 ∧ t.table.pc 0 = .done 0 ∧
        t.table.best = some 0 ∧ t.req 0 = 0 := by decide +kernel
  exact hrun.reaches

end Xv6.Ptable
