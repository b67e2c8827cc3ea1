/-
# `exit` and `wait` lose no child

`exit` wakes the parent before the process becomes a zombie, and init before it
gets a zombie from another process, all under `ptable.lock`; `wait` goes to sleep
only after a scan that found no zombie, under the same lock.  So no process
sleeps in `wait` with an exited child (`NoneLost`).

`exit_wait` adds what `wait` returns: the `pid` of a child at most once, to the
process that forked it or to init after that process has exited, and -1 only to a
process that has no child or has been killed.
-/

import Xv6.Proc.Info

namespace Xv6.Ptable

open Function Lib List Option State

variable {s s' : State} {i np : Slot} {p : Proc} {t : Slot → Proc}

/-- No process sleeps in `wait` while a child of it is a zombie. -/
def NoneLost (s : State) : Prop :=
  ∀ i j, (s.proc i).state = .SLEEPING → (s.proc i).chan = some (.proc i) →
    (s.proc j).parent = some i → (s.proc j).state ≠ .ZOMBIE

/-- What `wait` has returned: every `pid` once, no longer in use, to the forker or to
init after the forker has exited. -/
structure Reaped (s : State) : Prop where
  nodup : (s.reaped.map Reap.pid).Nodup
  lt : ∀ r ∈ s.reaped, r.pid < s.nextpid
  gone : ∀ r ∈ s.reaped, ∀ i, s.kind i ≠ .unused → (s.proc i).pid ≠ r.pid
  parent : ∀ r ∈ s.reaped, r.waiter = r.forker ∨
    (∃ i, s.initproc = some i ∧ (s.proc i).pid = r.waiter) ∧ r.forker ∈ s.exited

/-- A process in a system call with `killed` set has been killed since it was born. -/
def Killed (s : State) : Prop :=
  ∀ i, (s.pc i).inCall = true → (s.proc i).killed = true → (s.proc i).pid ∈ s.kills

/-! ### Steps that make no zombie and put no process to sleep in `wait` -/

/-- A step that brings no entry to life, makes no zombie and puts no process to sleep in
`wait`. -/
structure Mild (s s' : State) : Prop where
  pid : ∀ i, s'.kind i ≠ .unused → s.kind i ≠ .unused ∧ (s'.proc i).pid = (s.proc i).pid
  zombie : ∀ i, (s'.proc i).state = .ZOMBIE →
    (s.proc i).state = .ZOMBIE ∧ (s'.proc i).parent = (s.proc i).parent
  sleep : ∀ i, (s'.proc i).state = .SLEEPING → (s'.proc i).chan = some (.proc i) →
    (s.proc i).state = .SLEEPING ∧ (s.proc i).chan = some (.proc i)

/-- A step that reaps no child and lets no process exit. -/
def SameHistory (s s' : State) : Prop :=
  s'.nextpid = s.nextpid ∧ s'.exited = s.exited ∧ s'.reaped = s.reaped ∧
    (s.initproc = none ∨ s'.initproc = s.initproc)

theorem Mild.noneLost (h : Mild s s') (hn : NoneLost s) : NoneLost s' := fun i j hi hc hj hz => by
  obtain ⟨hi, hc⟩ := h.sleep i hi hc
  obtain ⟨hz, hp⟩ := h.zombie j hz
  exact hn i j hi hc (hp.symm.trans hj) hz

theorem Mild.refl_of (h : s'.proc = s.proc) : Mild s s' := by
  refine ⟨fun i hi => ⟨?_, by rw [h]⟩, fun i hi => ⟨by rwa [h] at hi, by rw [h]⟩,
    fun i hi hc => ⟨by rwa [h] at hi, by rwa [h] at hc⟩⟩
  unfold kind at hi ⊢
  rwa [h] at hi

variable (hproc : s'.proc = update s.proc i p) (hpid : p.state.kind ≠ .unused → s.kind i ≠ .unused ∧
  p.pid = (s.proc i).pid)

include hproc hpid

/-- One entry has been set, and none has come to life. -/
theorem pid_of_set (j : Slot)
    (hk : s'.kind j ≠ .unused) : s.kind j ≠ .unused ∧ (s'.proc j).pid = (s.proc j).pid := by
  unfold kind at hk
  rw [hproc, update_apply] at hk ⊢
  split_ifs at hk ⊢ with hji
  · rw [hji]
    exact hpid hk
  · exact ⟨hk, rfl⟩

theorem Mild.of_set (hz : p.state = .ZOMBIE → (s.proc i).state = .ZOMBIE ∧ p.parent =
    (s.proc i).parent)
    (hsl : p.state = .SLEEPING → p.chan = some (.proc i) →
      (s.proc i).state = .SLEEPING ∧ (s.proc i).chan = some (.proc i)) : Mild s s' := by
  have hj : ∀ j, s'.proc j = if j = i then p else s.proc j := fun j => by
    rw [hproc, update_apply]
  refine ⟨pid_of_set hproc hpid, fun j hk => ?_, fun j hk hc => ?_⟩
  · rw [hj] at hk ⊢
    split_ifs at hk ⊢ with hji
    · rw [hji]
      exact hz hk
    · exact ⟨hk, rfl⟩
  · rw [hj] at hk hc
    split_ifs at hk hc with hji
    · rw [hji] at hc ⊢
      exact hsl hk hc
    · exact ⟨hk, hc⟩

omit hproc hpid

theorem State.runs.not_unused (h : s.runs i) : s.kind i ≠ .unused := by
  rw [h.alive]
  simp

theorem SameHistory.reaped (h : SameHistory s s') (hs : Inv s) (hs' : Inv s')
    (hpid : ∀ i, s'.kind i ≠ .unused → s.kind i ≠ .unused ∧ (s'.proc i).pid = (s.proc i).pid)
    (hr : Reaped s) : Reaped s' := by
  obtain ⟨hnext, hexit, hreap, hinit⟩ := h
  refine ⟨by rw [hreap]; exact hr.nodup, fun r h => ?_, fun r h i hk => ?_, fun r h => ?_⟩
  · rw [hreap] at h
    rw [hnext]
    exact hr.lt r h
  · rw [hreap] at h
    rw [(hpid i hk).2]
    exact hr.gone r h i (hpid i hk).1
  · rw [hreap] at h
    rcases hr.parent r h with he | ⟨⟨i, hi1, hi2⟩, he⟩
    · exact .inl he
    · rcases hinit with hn | hsame
      · rw [hn] at hi1
        cases hi1
      · refine .inr ⟨⟨i, hsame.trans hi1, ?_⟩, by rw [hexit]; exact he⟩
        rw [(hs'.init i (hsame.trans hi1)).2, ← hi2, (hs.init i hi1).2]

theorem ProcState.kind_eq_zombie {st : ProcState} : st.kind = .zombie ↔ st = .ZOMBIE := by
  cases st <;> simp [ProcState.kind]

theorem wakeup1_zombie {c : Option Chan} :
    (wakeup1 c t i).state = .ZOMBIE ↔ (t i).state = .ZOMBIE := by
  unfold wakeup1
  split_ifs with h
  · rw [h.1]
    simp
  · rfl

/-- Who still sleeps after `wakeup1` slept before, on another channel. -/
theorem wakeup1_sleeping {c : Option Chan} (h : (wakeup1 c t i).state = .SLEEPING) :
    (t i).state = .SLEEPING ∧ (t i).chan ≠ c ∧ (wakeup1 c t i).chan = (t i).chan := by
  unfold wakeup1 at h ⊢
  split_ifs at h ⊢ with hc
  exact ⟨h, fun he => hc ⟨h, he⟩, rfl⟩

/-! ### `exit` under the lock -/

/-- `t'` is `t` with some processes woken and some parents changed. -/
def Woken (t t' : Slot → Proc) : Prop :=
  ∀ j, (t' j).killed = (t j).killed ∧ (t' j).chan = (t j).chan ∧
    ((t' j).state = .ZOMBIE ↔ (t j).state = .ZOMBIE) ∧
      ((t' j).state = .SLEEPING → (t j).state = .SLEEPING)

theorem Woken.refl (t : Slot → Proc) : Woken t t := fun _ => ⟨rfl, rfl, Iff.rfl, id⟩

theorem Woken.trans {t' t'' : Slot → Proc} (h : Woken t t') (h' : Woken t' t'') :
    Woken t t'' := fun j =>
  ⟨(h' j).1.trans (h j).1, (h' j).2.1.trans (h j).2.1, (h' j).2.2.1.trans (h j).2.2.1,
    fun hs => (h j).2.2.2 ((h' j).2.2.2 hs)⟩

theorem woken_wakeup1 (c : Option Chan) (t : Slot → Proc) : Woken t (wakeup1 c t) := fun j => by
  refine ⟨?_, ?_, wakeup1_zombie, fun h => (wakeup1_sleeping h).1⟩ <;>
    unfold wakeup1 <;> split_ifs <;> rfl

theorem woken_update (t : Slot → Proc) (p : Slot) (r : Option Slot) :
    Woken t (update t p { t p with parent := r }) := fun j => by
  rw [update_apply]
  split_ifs with hj
  · rw [hj]
    exact ⟨rfl, rfl, Iff.rfl, id⟩
  · exact ⟨rfl, rfl, Iff.rfl, id⟩

theorem woken_reparent1 (cur : Slot) (r : Option Slot) (t : Slot → Proc) (p : Slot) :
    Woken t (reparent1 cur r t p) := by
  unfold reparent1
  split_ifs
  · dsimp only
    split_ifs
    · exact (woken_update t p r).trans (woken_wakeup1 _ _)
    · exact woken_update t p r
  · exact .refl t

theorem woken_foldl (cur : Slot) (r : Option Slot) (l : List Slot) :
    ∀ t, Woken t (l.foldl (reparent1 cur r) t) := by
  induction l with
  | nil => exact .refl
  | cons p l ih => exact fun t => (woken_reparent1 cur r t p).trans (ih _)

/-- A child that has exited already wakes init when it is passed on. -/
theorem reparent1_wakes {cur : Slot} {r : Option Slot} {p : Slot} (hp : (t p).parent = some cur)
    (hz : (t p).state = .ZOMBIE) {k : Slot} (hk : (reparent1 cur r t p k).state = .SLEEPING) :
    (reparent1 cur r t p k).chan ≠ r.map .proc := by
  unfold reparent1 at hk ⊢
  rw [if_pos hp] at hk ⊢
  dsimp only at hk ⊢
  rw [if_pos (by rw [update_self]; exact hz)] at hk ⊢
  obtain ⟨-, h2, h3⟩ := wakeup1_sleeping hk
  rw [h3]
  exact h2

theorem foldl_wakes {r : Option Slot} {j : Slot} (l : List Slot) :
    ∀ t : Slot → Proc, j ∈ l → (t j).parent = some i → (t j).state = .ZOMBIE →
      ∀ k, (l.foldl (reparent1 i r) t k).state = .SLEEPING →
        (l.foldl (reparent1 i r) t k).chan ≠ r.map .proc := by
  induction l with
  | nil => exact fun t hj => absurd hj (by simp)
  | cons p l ih =>
    intro t hj hp hz k hk
    rw [foldl_cons] at hk ⊢
    by_cases hjp : j = p
    · have hw := woken_foldl i r l (reparent1 i r t p) k
      rw [hw.2.1]
      exact reparent1_wakes (hjp ▸ hp) (hjp ▸ hz) (hw.2.2.2 hk)
    · refine ih _ ((mem_cons.1 hj).resolve_left hjp) ?_
        ((woken_reparent1 i r t p j).2.2.1.2 hz) k hk
      rw [(reparent1_spec i r t p j).2.2.2, if_neg (fun h => hjp h.1)]
      exact hp

/-- The processes that still sleep on their own entry after the locked section of `exit` have no
exited child. -/
theorem NoneLost.exitLocked (hn : NoneLost s) (h : Inv s) (hi : s.kind i = .alive)
    (hp : s.pc i = .exitLock) : NoneLost (s.exitLocked i) := by
  have hroot := (h.closed i hp).1
  obtain ⟨q, hq, -, hlt, -⟩ := h.tree i (.inl hi) hroot
  have hqi : q ≠ i := fun he => by
    rw [he] at hlt
    exact absurd hlt (lt_irrefl _)
  have hspec := exitLocked_spec hroot
  have hw := woken_wakeup1 ((s.proc i).parent.map .proc) s.proc
  have hsl := fun k => wakeup1_sleeping (c := (s.proc i).parent.map .proc) (t := s.proc) (i := k)
  have hpar := fun k => (wakeup1_spec ((s.proc i).parent.map .proc) s.proc k).2.2.1
  intro k j hk hc hj hz
  rw [(hspec j).2.2.1] at hj
  clear hspec
  simp only [State.exitLocked] at hk hc hz
  generalize wakeup1 ((s.proc i).parent.map .proc) s.proc = t at *
  have hw' : Woken t (reparent i s.initproc t) := woken_foldl i s.initproc _ t
  have hwake := fun hpj hzt => foldl_wakes (i := i) (r := s.initproc) (finRange NPROC) t
    (mem_finRange j) hpj hzt k
  change _ → _ → (reparent i s.initproc t k).state = _ →
    (reparent i s.initproc t k).chan ≠ _ at hwake
  generalize reparent i s.initproc t = u at *
  have hki : k ≠ i := fun he => by
    rw [he, update_self] at hk
    cases hk
  rw [update_of_ne hki] at hk hc
  have hkt := (hw' k).2.2.2 hk
  have hck : (t k).chan = some (.proc k) := (hw' k).2.1.symm.trans hc
  by_cases hji : j = i
  · rw [hji, hq, if_neg (fun h => hqi (some.inj h))] at hj
    obtain ⟨-, h2, h3⟩ := hsl k hkt
    refine h2 (h3.symm.trans ?_)
    rw [hck, hq, hj, map_some]
  · rw [update_of_ne hji] at hz
    have hzt := (hw' j).2.2.1.1 hz
    split_ifs at hj with hpj
    · refine hwake ((hpar j).trans hpj) hzt hk ?_
      rw [hj]
      exact hc
    · exact hn k j ((hw k).2.2.2 hkt) ((hw k).2.1.symm.trans hck) hj ((hw j).2.2.1.1 hzt)

theorem Reaped.exitLocked (hr : Reaped s) (hi : s.kind i = .alive)
    (hroot : s.initproc ≠ some i) : Reaped (s.exitLocked i) := by
  have hspec := exitLocked_spec hroot
  refine ⟨hr.nodup, hr.lt, fun r h j hk => ?_, fun r h => ?_⟩
  · rw [(hspec j).1]
    refine hr.gone r h j ?_
    rw [(hspec j).2.2.2] at hk
    split_ifs at hk with hji
    · rw [hji, hi]
      simp
    · exact hk
  · rcases hr.parent r h with he | ⟨⟨j, hj, hpid⟩, he⟩
    · exact .inl he
    · exact .inr ⟨⟨j, hj, (hspec j).1.trans hpid⟩, mem_append_left _ he⟩

/-! ### `wait` -/

theorem find_eq_none {f : Proc → Bool} (h : s.find f = none) (i : Slot) : f (s.proc i) = false := by
  simpa using find?_eq_none.1 h i (mem_finRange i)

theorem zombieChild_spec {z : Slot} (h : s.zombieChild i = some z) :
    (s.proc z).parent = some i ∧ (s.proc z).state = .ZOMBIE := by
  simpa using find_eq_some h

/-- `wait` goes to sleep after a scan that found no zombie. -/
theorem NoneLost.wait (hn : NoneLost s) (hz : s.zombieChild i = none) : NoneLost
    ((s.set i { s.proc i with chan := some (.proc i), state := .SLEEPING }).goto i .waiting) := by
  intro k j hk hc hj hzj
  change (update s.proc i _ k).state = _ at hk
  change (update s.proc i _ k).chan = _ at hc
  change (update s.proc i _ j).parent = _ at hj
  change (update s.proc i _ j).state = _ at hzj
  rw [update_apply] at hk hc hj hzj
  split_ifs at hk hc hj hzj with h1 h2
  · have := find_eq_none hz j
    rw [h1] at hj
    simp [hj, hzj] at this
  · exact hn k j hk hc hj hzj

/-- A `pid` that `wait` returns is in no entry any more. -/
theorem Reaped.reap (hr : Reaped s) (h : Inv s) {z : Slot} (hz : s.zombieChild i = some z) :
    Reaped (s.wait i) := by
  obtain ⟨hpar, hzs⟩ := zombieChild_spec hz
  have hzk : s.kind z = .zombie := by
    unfold kind
    rw [hzs]
    rfl
  have hzu : s.kind z ≠ .unused := by
    rw [hzk]
    simp
  have hroot : s.initproc ≠ some z := fun he => by
    rw [(h.init z he).1] at hpar
    cases hpar
  obtain ⟨q, hq, -, -, horig⟩ := h.tree z (.inr hzk) hroot
  rw [some.inj (hq.symm.trans hpar)] at horig
  obtain ⟨p, hp, hproc, hreap, hnext, hinit, hexit⟩ : ∃ p : Proc, p.state = .UNUSED ∧
      (s.wait i).proc = update s.proc z p ∧
      (s.wait i).reaped = s.reaped ++ [⟨(s.proc z).pid, (s.proc i).pid, s.origin z⟩] ∧
      (s.wait i).nextpid = s.nextpid ∧ (s.wait i).initproc = s.initproc ∧
      (s.wait i).exited = s.exited := by
    unfold wait
    rw [hz]
    exact ⟨_, rfl, rfl, rfl, rfl, rfl, rfl⟩
  generalize s.wait i = s' at *
  have hother : ∀ j, j ≠ z → s'.proc j = s.proc j := fun j hj => by
    rw [hproc, update_of_ne hj]
  have hlive : ∀ j, s'.kind j ≠ .unused → j ≠ z ∧ s.kind j ≠ .unused := fun j hk => by
    have hjz : j ≠ z := fun he => hk (by
      unfold kind
      rw [he, hproc, update_self, hp]
      rfl)
    refine ⟨hjz, ?_⟩
    unfold kind at hk ⊢
    rwa [hother j hjz] at hk
  have hne : ∀ j, s.initproc = some j → s'.proc j = s.proc j := fun j hj =>
    hother j fun he => hroot (he ▸ hj)
  refine ⟨?_, fun r hm => ?_, fun r hm j hk => ?_, fun r hm => ?_⟩
  · rw [hreap, map_append, nodup_append]
    refine ⟨hr.nodup, by simp, fun a ha b hb => ?_⟩
    obtain ⟨r, hrm, rfl⟩ := mem_map.1 ha
    rw [mem_singleton.1 hb]
    exact (hr.gone r hrm z hzu).symm
  all_goals
    rw [hreap] at hm
    rcases mem_append.1 hm with hm | hm
  · rw [hnext]
    exact hr.lt r hm
  · rw [mem_singleton.1 hm, hnext]
    exact (h.pids z hzu).2
  · obtain ⟨hjz, hk'⟩ := hlive j hk
    rw [hother j hjz]
    exact hr.gone r hm j hk'
  · obtain ⟨hjz, hk'⟩ := hlive j hk
    rw [hother j hjz, mem_singleton.1 hm]
    exact fun he => hjz (h.inj j z hk' hzu he)
  · rcases hr.parent r hm with he | ⟨⟨j, hj, hpid⟩, he⟩
    · exact .inl he
    · exact .inr ⟨⟨j, hinit.trans hj, by rw [hne j hj, hpid]⟩, hexit ▸ he⟩
  · rw [mem_singleton.1 hm]
    rcases horig with he | ⟨hin, he⟩
    · exact .inl he
    · exact .inr ⟨⟨i, hinit.trans hin, by rw [hne i hin]⟩, hexit ▸ he⟩

/-! ### Allocation -/

theorem Inv.initproc_used (h : Inv s) {r : Slot} (hr : s.initproc = some r) :
    s.kind r ≠ .unused := by
  have hb := h.boot
  unfold Booting at hb
  split at hb
  · rw [hb.2.1] at hr
    cases hr
  · rw [hb.2] at hr
    cases hr
  · rw [hb.2] at hr
    cases hr
  · rw [hb.2] at hr
    rw [← some.inj hr, hb.1.embryo]
    simp
  · obtain ⟨q, hq, hqa⟩ := hb
    rw [hq] at hr
    rw [← some.inj hr, hqa]
    simp

/-- A new process is no zombie, and its `pid` is new. -/
theorem NoneLost.allocproc (hn : NoneLost s) (ha : s.allocproc = some (np, s')) : NoneLost s' := by
  obtain ⟨i, -, he⟩ := map_eq_some_iff.1 ha
  cases he
  intro k j hk hc hj hz
  change (update s.proc np _ k).state = _ at hk
  change (update s.proc np _ k).chan = _ at hc
  change (update s.proc np _ j).parent = _ at hj
  change (update s.proc np _ j).state = _ at hz
  rw [update_apply] at hk hc hj hz
  split_ifs at hk hc hj hz
  exact hn k j hk hc hj hz

theorem Reaped.allocproc (hr : Reaped s) (h : Inv s)
    (ha : s.allocproc = some (np, s')) (hb : s'.allocs < 2 ^ 31 - 1) : Reaped s' := by
  obtain ⟨i, hi, he⟩ := map_eq_some_iff.1 ha
  have hfree := allocproc_unused ha
  cases he
  have hnext := h.nextpid_succ hb
  have hproc : ∀ (p : Proc) j, j ≠ np → (s.set np p).proc j = s.proc j := fun p j hj =>
    update_of_ne hj ..
  refine ⟨hr.nodup, fun r hm => ?_, fun r hm j hk => ?_, fun r hm => ?_⟩
  · change r.pid < int32 (s.nextpid + 1)
    rw [hnext]
    exact (hr.lt r hm).trans (by omega)
  · unfold kind at hk
    change (update s.proc np _ j).state.kind ≠ _ at hk
    change (update s.proc np _ j).pid ≠ _
    rw [update_apply] at hk ⊢
    split_ifs at hk ⊢ with hj
    · exact (hr.lt r hm).ne'
    · exact hr.gone r hm j hk
  · rcases hr.parent r hm with he | ⟨⟨j, hj, hpid⟩, he⟩
    · exact .inl he
    · refine .inr ⟨⟨j, hj, ?_⟩, he⟩
      have hjn : j ≠ np := fun he => h.initproc_used hj (he ▸ hfree)
      rw [hproc _ j hjn]
      exact hpid

/-! ### `killed` -/

variable (hk : Killed s)

include hk

theorem Killed.of_set {e : Slot} {c : Pc}
    (hproc : s'.proc = update s.proc e p) (hpc : s'.pc = update s.pc i c)
    (hkills : s.kills ⊆ s'.kills)
    (hp : (s'.pc e).inCall = true → p.killed = true →
      (s.proc e).killed = true ∧ p.pid = (s.proc e).pid ∨ p.pid ∈ s'.kills)
    (hc : c.inCall = true → (s.pc i).inCall = true ∨ (s.proc i).killed = false) : Killed s' := by
  intro j hj hkj
  have hcall : (s.proc j).killed = true → (s.pc j).inCall = true := fun hkj => by
    rw [hpc, update_apply] at hj
    split_ifs at hj with hji
    · rw [hji] at hkj ⊢
      rcases hc hj with h | h
      · exact h
      · rw [h] at hkj
        cases hkj
    · exact hj
  rw [hproc, update_apply] at hkj ⊢
  split_ifs at hkj ⊢ with hje
  · rw [hje] at hj hcall
    rcases hp hj hkj with ⟨h1, h2⟩ | h
    · rw [h2]
      exact hkills (hk e (hcall h1) h1)
    · exact h
  · exact hkills (hk j (hcall hkj) hkj)

theorem Killed.goto {c : Pc}
    (hc : c.inCall = true → (s.pc i).inCall = true ∨ (s.proc i).killed = false) :
    Killed (s.goto i c) :=
  hk.of_set (e := i) (update_eq_self ..).symm rfl (fun _ h => h)
    (fun _ h => .inl ⟨h, rfl⟩) hc

theorem Killed.set (hkilled : p.killed = (s.proc i).killed)
    (hpid : p.pid = (s.proc i).pid) : Killed (s.set i p) :=
  hk.of_set (e := i) (i := i) rfl (update_eq_self ..).symm (fun _ h => h)
    (fun _ h => .inl ⟨hkilled ▸ h, hpid⟩) .inl

theorem Killed.set_goto {e : Slot} {c : Pc}
    (hkilled : p.killed = (s.proc e).killed) (hpid : p.pid = (s.proc e).pid)
    (hc : c.inCall = true → (s.pc i).inCall = true ∨ (s.proc i).killed = false) :
    Killed ((s.set e p).goto i c) :=
  hk.of_set rfl rfl (fun _ h => h) (fun _ h => .inl ⟨hkilled ▸ h, hpid⟩) hc

theorem Killed.allocproc (h : Inv s) (ha : s.allocproc = some (np, s')) : Killed s' := by
  have hidle := h.idle np (by rw [allocproc_unused ha]; simp)
  obtain ⟨i, -, he⟩ := map_eq_some_iff.1 ha
  cases he
  refine hk.of_set (e := np) (i := np) rfl (update_eq_self ..).symm (fun _ h => h)
    (fun hc => ?_) .inl
  change (s.pc np).inCall = true at hc
  rw [hidle] at hc
  cases hc

theorem Killed.exitLocked (hroot : s.initproc ≠ some i) : Killed (s.exitLocked i) := by
  intro j hj hkj
  rw [(exitLocked_spec hroot j).1]
  have hw : (reparent i s.initproc (wakeup1 ((s.proc i).parent.map .proc) s.proc) j).killed =
      (s.proc j).killed :=
    ((woken_wakeup1 ((s.proc i).parent.map .proc) s.proc).trans (woken_foldl i s.initproc _ _) j).1
  simp only [State.exitLocked] at hkj hj
  generalize reparent i s.initproc _ = u at *
  rw [update_apply] at hkj hj
  split_ifs at hkj hj
  · cases hj
  · exact hk j hj (hw ▸ hkj)

/-- A process enters a system call only with `killed` unset, and whoever sets it is recorded. -/
theorem Killed.step (h : Inv s) {a : Act} (hs : s.step a = some (.ok s')) : Killed s' := by
  have hcall : ∀ {i}, s.pc i = .entered ∨ s.pc i = .waiting → (s.pc i).inCall = true := by
    rintro i (hp | hp) <;> rw [hp] <;> rfl
  cases effect_of_step hs with
  | start _ ha => exact fun i => hk.allocproc h ha i
  | kalloc => exact hk
  | setup | run => exact hk.set rfl rfl
  | set hp => exact hk.set hp.killed hp.pid
  | goto _ _ _ hc => exact hk.goto hc
  | wakeup =>
    intro j hj hkj
    change (wakeup1 _ s.proc j).killed = true at hkj
    change (wakeup1 _ s.proc j).pid ∈ _
    rw [(woken_wakeup1 _ s.proc j).1] at hkj
    rw [(wakeup1_spec _ s.proc j).2.1]
    exact hk j hj hkj
  | @fault i =>
    exact hk.of_set (i := i) rfl (update_eq_self ..).symm
      (fun _ h => mem_append_left _ h) (fun _ _ => .inr (by simp)) .inl
  | own _ hf =>
    refine hk.set_goto rfl rfl fun hc => ?_
    cases hf with
    | file _ hp => exact .inl (hcall (.inl hp))
    | _ => cases hc
  | alloc _ hp ha =>
    refine (hk.allocproc h ha).goto (c := .fork _ .kalloc) fun _ => .inl ?_
    obtain ⟨e, -, he⟩ := map_eq_some_iff.1 ha
    cases he
    exact hcall (.inl hp)
  | forkNext hp hw => exact hk.set_goto hw.killed hw.pid fun _ => .inl (by rw [hp]; rfl)
  | forkFail hp => exact hk.set_goto rfl rfl fun _ => .inl (by rw [hp]; rfl)
  | @forkRun i np _ hp =>
    have hf := h.fork i np .run hp
    have hne : i ≠ np := fun he => by
      have hk := hf.alive.symm.trans (he ▸ hf.embryo)
      cases hk
    have hnp : Killed ((s.set np { s.proc np with state := .RUNNABLE }).goto np .user) :=
      hk.set_goto rfl rfl (by simp [Pc.inCall])
    refine hnp.goto fun _ => .inl ?_
    rw [pc_goto, if_neg hne]
    exact hp ▸ rfl
  | exitLocked _ hp => exact hk.exitLocked (h.closed _ hp).1
  | reap _ hp hz =>
    unfold wait
    rw [hz]
    exact hk.of_set rfl rfl (fun _ h => h) (by simp) fun _ => .inl (hcall hp)
  | wait _ hp => exact hk.set_goto rfl rfl fun _ => .inl (hcall hp)
  | kill _ hp =>
    exact hk.of_set rfl rfl (fun _ h => mem_append_left _ h) (fun _ _ => .inr (by simp))
      fun _ => .inl (hcall (.inl hp))
  | nice _ hp => exact hk.set_goto rfl rfl fun _ => .inl (hcall (.inl hp))

omit hk

/-! ### Runs -/

/-- What holds in every reachable state, whenever the lock is free. -/
structure Waits (s : State) : Prop where
  inv : Inv s
  noneLost : NoneLost s
  reaped : Reaped s
  killed : Killed s

theorem waits_init : Waits State.init where
  inv := inv_init
  noneLost _ _ h := by cases h
  reaped := ⟨nodup_nil, by simp [init], by simp [init], by simp [init]⟩
  killed _ h := by cases h

/-- Every step keeps `Waits`: it is mild, or it allocates an entry, or it is the locked section of
`exit` or a round of `wait`. -/
theorem Waits.step (h : Waits s) {a : Act} (hs : s.step a = some (.ok s'))
    (hb : s'.allocs < 2 ^ 31 - 1) : Waits s' := by
  have hinv := h.inv.step hs hb
  suffices hgoal : NoneLost s' ∧ Reaped s' from
    ⟨hinv, hgoal.1, hgoal.2, h.killed.step h.inv hs⟩
  have hmild : ∀ hm : Mild s s', SameHistory s s' → NoneLost s' ∧ Reaped s' := fun hm hsame =>
    ⟨hm.noneLost h.noneLost, hsame.reaped h.inv hinv hm.pid h.reaped⟩
  have hboot := h.inv.boot
  unfold Booting at hboot
  cases effect_of_step hs with
  | start _ ha | alloc _ _ ha =>
    have hre := h.reaped.allocproc h.inv ha hb
    have hn := h.noneLost.allocproc ha
    exact ⟨hn, hre.nodup, hre.lt, hre.gone, hre.parent⟩
  | exitLocked hr hp =>
    exact ⟨h.noneLost.exitLocked h.inv hr.alive hp,
      h.reaped.exitLocked hr.alive (h.inv.closed _ hp).1⟩
  | reap _ _ hz =>
    refine ⟨?_, h.reaped.reap h.inv hz⟩
    unfold wait
    rw [hz]
    exact (Mild.of_set rfl (by simp [ProcState.kind]) (by simp) (by simp)).noneLost h.noneLost
  | wait hr _ hz =>
    refine ⟨h.noneLost.wait hz, SameHistory.reaped (s := s) ⟨rfl, rfl, rfl, .inr rfl⟩ h.inv hinv
      (pid_of_set rfl fun _ => ⟨hr.not_unused, rfl⟩) h.reaped⟩
  | kalloc | goto => exact hmild (.refl_of rfl) ⟨rfl, rfl, rfl, .inr rfl⟩
  | setup hpt =>
    rw [hpt] at hboot
    exact hmild (.of_set rfl (fun hk => ⟨hk, rfl⟩) (fun hz => ⟨hz, rfl⟩) fun h1 h2 => ⟨h1, h2⟩)
      ⟨rfl, rfl, rfl, .inl hboot.2⟩
  | run hpt =>
    rw [hpt] at hboot
    exact hmild (.of_set rfl (fun _ => ⟨by rw [hboot.1.embryo]; simp, rfl⟩) (by simp) (by simp))
      ⟨rfl, rfl, rfl, .inr rfl⟩
  | set hp hsl =>
    exact hmild (.of_set rfl (fun hk => ⟨hp.kind.symm.trans_ne hk, hp.pid⟩) (fun hz =>
      ⟨ProcState.kind_eq_zombie.1 (hp.kind ▸ hz ▸ rfl), hp.parent⟩) hsl) ⟨rfl, rfl, rfl, .inr rfl⟩
  | wakeup =>
    refine hmild ⟨fun i hi => ⟨?_, (wakeup1_spec _ _ i).2.1⟩, fun i hi =>
      ⟨wakeup1_zombie.1 hi, (wakeup1_spec _ _ i).2.2.1⟩, fun i hi hc => ?_⟩
        ⟨rfl, rfl, rfl, .inr rfl⟩
    · unfold kind at hi ⊢
      rwa [show _ = _ from (wakeup1_spec _ s.proc i).1] at hi
    · obtain ⟨h1, -, h3⟩ := wakeup1_sleeping hi
      exact ⟨h1, h3.symm.trans hc⟩
  | fault | own | nice =>
    exact hmild (.of_set rfl (fun hk => ⟨hk, rfl⟩) (fun hz => ⟨hz, rfl⟩) fun h1 h2 => ⟨h1, h2⟩)
      ⟨rfl, rfl, rfl, .inr rfl⟩
  | forkNext hp hw =>
    have hf := h.inv.fork _ _ _ hp
    refine hmild (.of_set rfl (fun _ => ⟨by rw [hf.embryo]; simp, hw.pid⟩) (fun hz => ?_)
      fun h1 h2 => ⟨hw.state ▸ h1, hw.chan ▸ h2⟩) ⟨rfl, rfl, rfl, .inr rfl⟩
    have hk := hf.embryo
    unfold kind at hk
    rw [← hw.state, hz] at hk
    cases hk
  | forkFail =>
    exact hmild (.of_set rfl (by simp [ProcState.kind]) (by simp) (by simp))
      ⟨rfl, rfl, rfl, .inr rfl⟩
  | forkRun hp =>
    exact hmild (.of_set rfl (fun _ => ⟨by rw [(h.inv.fork _ _ _ hp).embryo]; simp, rfl⟩) (by simp)
      (by simp)) ⟨rfl, rfl, rfl, .inr rfl⟩
  | kill =>
    refine hmild (.of_set rfl (fun hk => ⟨?_, rfl⟩) ?_ ?_) ⟨rfl, rfl, rfl, .inr rfl⟩
    · unfold kind
      split_ifs at hk with hsl
      · rw [hsl]
        simp [ProcState.kind]
      · exact hk
    · dsimp only
      split_ifs with hsl
      · simp
      · exact fun hz => ⟨hz, rfl⟩
    · dsimp only
      split_ifs with hsl
      · simp
      · exact fun h1 => absurd h1 hsl

theorem waits_of_reaches (h : Reaches State.step State.init s) (hb : s.allocs < 2 ^ 31 - 1) :
    Waits s :=
  Reaches.inv (I := fun s => s.allocs < 2 ^ 31 - 1 → Waits s)
    (fun _ _ _ hi hs hb => (hi ((allocs_mono hs).trans_lt hb)).step hs hb) h
    (fun _ => waits_init) hb

/-- What a round of `wait` returns. -/
theorem Waits.wait (h : Waits s) (hs : s.step (.wait i) = some (.ok s')) {r : ℤ}
    (hr : s'.pc i = .done r) :
    (r = -1 → (∀ j, (s.proc j).parent ≠ some i) ∨
      (s.proc i).killed = true ∧ (s.proc i).pid ∈ s.kills) ∧
    (r ≠ -1 → ∃ z, (s.proc z).parent = some i ∧ (s.proc z).state = .ZOMBIE ∧
      (s.proc z).pid = r ∧ s'.reaped = s.reaped ++ [⟨r, (s.proc i).pid, s.origin z⟩]) := by
  simp only [State.step] at hs
  split_ifs at hs with hw
  cases hs
  have hcall : (s.pc i).inCall = true := by
    rcases hw.2 with hp | hp <;> rw [hp] <;> rfl
  unfold wait at hr ⊢
  split at hr <;> rename_i hz
  · rename_i z
    obtain ⟨hpar, hzs⟩ := zombieChild_spec hz
    have hpid : (s.proc z).pid = r := by
      change update s.pc i _ i = _ at hr
      rw [update_self] at hr
      exact Pc.done.inj hr
    have hpos := (h.inv.pids z (by unfold kind; rw [hzs]; simp [ProcState.kind])).1
    refine ⟨fun he => ?_, fun _ => ⟨z, hpar, hzs, hpid, ?_⟩⟩
    · omega
    · rw [← hpid]
  · split_ifs at hr with hk
    · rw [pc_goto, if_pos rfl] at hr
      obtain rfl := Pc.done.inj hr
      refine ⟨fun _ => ?_, fun hne => absurd rfl hne⟩
      rcases Bool.or_eq_true_iff.1 hk with hk | hk
      · refine .inl fun j hj => ?_
        have : s.havekids i = true := any_eq_true.2 ⟨j, mem_finRange j, by simpa using hj⟩
        rw [this] at hk
        cases hk
      · exact .inr ⟨hk, h.killed i hcall hk⟩
    · rw [pc_goto, if_pos rfl] at hr
      cases hr

/-- A `fork` that returns a `pid` has made its caller the origin of the new entry. -/
theorem Inv.fork_returns (h : Inv s) {ok : Bool} {r : ℤ}
    (hs : s.step (.fork i ok) = some (.ok s')) (hr : s'.pc i = .done r) (hne : r ≠ -1) :
    ∃ np, (s'.proc np).pid = r ∧ s'.origin np = (s.proc i).pid := by
  simp only [State.step] at hs
  split at hs
  · rename_i np k hp
    split_ifs at hs
    cases hs
    have hf := h.fork i np k hp
    have hdone : ∀ t : State, (t.goto i (.done (-1))).pc i ≠ .done r := fun t ht => by
      rw [pc_goto, if_pos rfl] at ht
      exact hne (Pc.done.inj ht).symm
    have hfork : ∀ (t : State) k, (t.goto i (.fork np k)).pc i ≠ .done r := fun t k ht => by
      rw [pc_goto, if_pos rfl] at ht
      cases ht
    cases k <;> simp only [forkStep] at hr
    case kalloc | copyuvm =>
      split_ifs at hr
      · exact absurd hr (hfork _ _)
      · exact absurd hr (hdone _)
    case files =>
      split_ifs at hr
      · exact absurd hr (hfork _ _)
      · exact absurd hr (hfork _ _)
    case run =>
      rw [pc_goto, if_pos rfl] at hr
      refine ⟨np, ?_, hf.origin⟩
      change (update s.proc np _ np).pid = r
      rw [update_self]
      exact Pc.done.inj hr
    all_goals exact absurd hr (hfork _ _)
  · cases hs

/-- **`exit` and `wait` lose no child.**  In every state that is reached with fewer than
`2 ^ 31 - 1` allocations, whenever the lock is free, no process sleeps in `wait` while a child of
it is a zombie.  A `fork` that returns a `pid` has made its caller the origin of the new entry;
`wait` has returned each `pid` at most once, to that origin, or to init after the origin has
exited.  And a round of `wait` that returns does so with the `pid` of an exited child, or with -1
to a process that has no child or has been killed. -/
theorem exit_wait (s : State) (h : Reaches State.step State.init s)
    (hb : s.allocs < 2 ^ 31 - 1) :
    (∀ i j, (s.proc i).state = .SLEEPING → (s.proc i).chan = some (.proc i) →
      (s.proc j).parent = some i → (s.proc j).state ≠ .ZOMBIE) ∧
    (∀ i ok s' r, s.step (.fork i ok) = some (.ok s') → s'.pc i = .done r → r ≠ -1 →
      ∃ np, (s'.proc np).pid = r ∧ s'.origin np = (s.proc i).pid) ∧
    ((s.reaped.map Reap.pid).Nodup ∧ ∀ r ∈ s.reaped, r.waiter = r.forker ∨
      (∃ i, s.initproc = some i ∧ (s.proc i).pid = r.waiter) ∧ r.forker ∈ s.exited) ∧
    ∀ i s' r, s.step (.wait i) = some (.ok s') → s'.pc i = .done r →
      (r = -1 → (∀ j, (s.proc j).parent ≠ some i) ∨
        (s.proc i).killed = true ∧ (s.proc i).pid ∈ s.kills) ∧
      (r ≠ -1 → ∃ z, (s.proc z).parent = some i ∧ (s.proc z).state = .ZOMBIE ∧
        (s.proc z).pid = r ∧ s'.reaped = s.reaped ++ [⟨r, (s.proc i).pid, s.origin z⟩]) := by
  have hw := waits_of_reaches h hb
  exact ⟨hw.noneLost, fun i ok s' r hs hr hne => hw.inv.fork_returns hs hr hne,
    ⟨hw.reaped.nodup, hw.reaped.parent⟩,
    fun i s' r hs hr => hw.wait hs hr⟩

/-- The hypotheses of `exit_wait` are satisfiable: init forks a child and sleeps in `wait`, the
child exits, and `wait` returns its `pid`. -/
theorem exit_wait_child :
    ∃ s s' : State, Reaches State.step State.init s ∧ s.allocs < 2 ^ 31 - 1 ∧
      s.step (.wait 0) = some (.ok s') ∧ s'.pc 0 = .done 2 ∧ s'.reaped.map Reap.pid = [2] ∧
        ∃ z, (s.proc z).parent = some 0 ∧ (s.proc z).pid = 2 := by
  have hrun : Leads step init (bootRun ++ forkRun 0 ++
      [.enter 0, .wait 0, .schedule, .enter 1, .exit 1] ++ replicate 18 (.exitStep 1) ++
        [.schedule, .resume 0]) fun s => s.allocs < 2 ^ 31 - 1 ∧ Leads step s [.wait 0] fun s' =>
      s'.pc 0 = .done 2 ∧ s'.reaped.map Reap.pid = [2] := by decide +kernel
  obtain ⟨s, h, hb, s', hs', hdone, hreap⟩ := hrun.reaches
  have hstep : s.step (.wait 0) = some (.ok s') := by
    simp only [runSteps] at hs'
    split at hs'
    · rename_i s₁ h₁
      rw [h₁, some.inj hs']
    · cases hs'
  obtain ⟨z, hz, -, hpid, -⟩ := ((exit_wait s h hb).2.2.2 0 s' 2 hstep hdone).2 (by decide)
  exact ⟨s, s', h, hb, hstep, hdone, hreap, z, hz, hpid⟩

end Xv6.Ptable
