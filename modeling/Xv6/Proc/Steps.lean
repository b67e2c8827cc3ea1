/-
# The steps that change the process tree

`fork`, `exit`, `wait` and `userinit` on the invariant of `Xv6.Proc.Tree`.  An
entry that runs no process is nobody's parent, so its allocation, the steps of
`fork` on it and its reaping are one lemma (`Inv.entry`); `exit` passes the
children of a process to init before the process becomes a zombie
(`Inv.exitLocked`).  With them every step keeps the invariant (`Inv.step`).
-/

import Xv6.Proc.Tree

namespace Xv6.Ptable

open Function Lib Option State

variable {s s' : State} {i np : Slot} {k : ForkAt}

theorem Inv.init_alive (h : Inv s) (hb : s.boot = .done) :
    ∃ r, s.initproc = some r ∧ s.kind r = .alive := by
  have := h.boot
  unfold Booting at this
  rwa [hb] at this

/-- While `userinit` runs, no process does. -/
theorem Inv.boot_done (h : Inv s) (hi : s.kind i = .alive) : s.boot = .done := by
  have hboot := h.boot
  unfold Booting at hboot
  have hfirst : ∀ p, First s p → False := fun p hp => by
    by_cases hip : i = p
    · rw [hip, hp.embryo] at hi
      cases hi
    · rw [hp.others i hip] at hi
      cases hi
  split at hboot
  · rw [hboot.1 i] at hi
    cases hi
  · exact (hfirst _ hboot.1).elim
  · exact (hfirst _ hboot.1).elim
  · exact (hfirst _ hboot.1).elim
  · assumption

/-- **A step that changes an entry `e` that runs no process**, made by process `i`, which
goes on at `c`: allocation, the steps of `fork`, and the reaping of a child.  What it must
show of `e`; the rest of the tree stays, for no parent is `e`. -/
theorem Inv.entry (h : Inv s) {e : Slot} {p : Proc} {c : Pc} (hi : s.kind i = .alive)
    (he : s.kind e ≠ .alive) (hproc : s'.proc = update s.proc e p)
    (hpc : s'.pc = update s.pc i c) (hcount : s'.nextpid = s'.allocs + 1)
    (hnext : s.nextpid ≤ s'.nextpid) (hinit : s'.initproc = s.initproc)
    (hboot : s'.boot = s.boot) (hexit : s'.exited = s.exited)
    (horigin : ∀ j, j ≠ e → s'.origin j = s.origin j)
    (hpids : p.state.kind ≠ .unused → 0 < p.pid ∧ p.pid < s'.nextpid ∧
      ∀ j, j ≠ e → s.kind j ≠ .unused → (s.proc j).pid ≠ p.pid)
    (hfiles : p.state.kind = .unused ∨ p.state.kind = .zombie → p.noFiles)
    (hunused : p.state.kind = .unused → p.parent = none)
    (htree : p.state.kind = .alive ∨ p.state.kind = .zombie →
      ∃ q, p.parent = some q ∧ s.kind q = .alive ∧ (s.proc q).pid < p.pid ∧
        ((s.proc q).pid = s'.origin e ∨ s.initproc = some q ∧ s'.origin e ∈ s.exited))
    (hembryo : p.state.kind = .embryo → ∃ k, c = .fork e k)
    (hown : ∀ j np k, s.pc j = .fork np k → (np = e ↔ j = i))
    (hc : c.plain = true ∨ ∃ k, c = .fork e k ∧ p.state.kind = .embryo ∧
      (s.proc i).pid < p.pid ∧ s'.origin e = (s.proc i).pid ∧
        (p.parent = if k.hasParent then some i else none) ∧ (k.early = true → p.noFiles)) :
    Inv s' := by
  have hj : ∀ j, j ≠ e → s'.proc j = s.proc j := fun j hje => by
    rw [hproc, update_of_ne hje]
  have hpe : s'.proc e = p := by rw [hproc, update_self]
  have hk : ∀ j, j ≠ e → s'.kind j = s.kind j := fun j hje => by
    unfold kind
    rw [hj j hje]
  have hke : s'.kind e = p.state.kind := by
    unfold kind
    rw [hpe]
  have hne : ∀ j, s.kind j = .alive → j ≠ e := by
    rintro j hja rfl
    exact he hja
  have hie := hne i hi
  have hpcj : ∀ j, j ≠ i → s'.pc j = s.pc j := fun j hji => by rw [hpc, update_of_ne hji]
  have hpci : s'.pc i = c := by rw [hpc, update_self]
  obtain ⟨r, hr, hra⟩ := h.init_alive (h.boot_done hi)
  have hre := hne r hra
  have hexiting : ∀ j c', s'.pc j = c' → c'.plain = false → (∀ np k, c' ≠ .fork np k) →
      s.pc j = c' ∧ j ≠ e := by
    rintro j c' rfl hplain hnot
    have hji : j ≠ i := by
      rintro rfl
      rw [hpci] at hplain hnot
      rcases hc with hc | ⟨k, hk, -⟩
      · cases hplain.symm.trans hc
      · exact hnot e k hk
    rw [hpcj j hji] at hplain ⊢
    refine ⟨rfl, ?_⟩
    rintro rfl
    rw [h.idle j he] at hplain
    cases hplain
  refine ⟨hcount, fun j hjk => ?_, fun j k hjk hkk hjk' => ?_, fun j hjk => ?_, fun j hjk => ?_,
    fun j hjk hjr => ?_, fun r' hr' => ?_, ?_, fun j np k hjk => ?_,
      fun j j' np k k' hjk hjk' => ?_,
    fun e' he' => ?_, fun j fd hjk => ?_, fun j hjk => ?_, fun j hjk => ?_⟩
  · by_cases hje : j = e
    · subst hje
      rw [hke] at hjk
      rw [hpe]
      exact ⟨(hpids hjk).1, (hpids hjk).2.1⟩
    · rw [hk j hje] at hjk
      rw [hj j hje]
      exact ⟨(h.pids j hjk).1, (h.pids j hjk).2.trans_le hnext⟩
  · by_cases hje : j = e
    · by_cases hke' : k = e
      · exact hje.trans hke'.symm
      · subst hje
        rw [hpe, hj k hke'] at hjk'
        rw [hke] at hjk
        rw [hk k hke'] at hkk
        exact absurd hjk'.symm ((hpids hjk).2.2 k hke' hkk)
    · by_cases hke' : k = e
      · subst hke'
        rw [hpe, hj j hje] at hjk'
        rw [hke] at hkk
        rw [hk j hje] at hjk
        exact absurd hjk' ((hpids hkk).2.2 j hje hjk)
      · rw [hj j hje, hj k hke'] at hjk'
        exact h.inj j k (hk j hje ▸ hjk) (hk k hke' ▸ hkk) hjk'
  · by_cases hje : j = e
    · subst hje
      rw [hke] at hjk
      rw [hpe]
      exact hfiles hjk
    · rw [hj j hje]
      exact h.files j (hk j hje ▸ hjk)
  · by_cases hje : j = e
    · subst hje
      rw [hke] at hjk
      rw [hpe]
      exact hunused hjk
    · rw [hj j hje]
      exact h.unused j (hk j hje ▸ hjk)
  · by_cases hje : j = e
    · subst hje
      rw [hke] at hjk
      obtain ⟨q, h1, h2, h3, h4⟩ := htree hjk
      refine ⟨q, by rw [hpe]; exact h1, (hk q (hne q h2)).trans h2, ?_, ?_⟩
      · rw [hpe, hj q (hne q h2)]
        exact h3
      · rw [hj q (hne q h2), hinit, hexit]
        exact h4
    · obtain ⟨q, h1, h2, h3, h4⟩ := h.tree j (hk j hje ▸ hjk) (hinit ▸ hjr)
      refine ⟨q, by rw [hj j hje]; exact h1, (hk q (hne q h2)).trans h2, ?_, ?_⟩
      · rw [hj j hje, hj q (hne q h2)]
        exact h3
      · rw [hj q (hne q h2), hinit, hexit, horigin j hje]
        exact h4
  · obtain rfl : r = r' := some.inj (hr.symm.trans (hinit ▸ hr'))
    rw [hj r hre]
    exact h.init r hr
  · have hd := h.boot_done hi
    unfold Booting
    rw [hboot, hd]
    exact ⟨r, hinit.trans hr, (hk r hre).trans hra⟩
  · by_cases hji : j = i
    · subst hji
      rw [hpci] at hjk
      rcases hc with hc | ⟨k', rfl, h1, h2, h3, h4, h5⟩
      · rw [hjk] at hc
        cases hc
      · cases hjk
        refine ⟨(hk j hie).trans hi, hke.trans h1, ?_, ?_, ?_, ?_⟩
        · rw [hpe, hj j hie]
          exact h2
        · rw [hj j hie]
          exact h3
        · rw [hpe]
          exact h4
        · rw [hpe]
          exact h5
    · rw [hpcj j hji] at hjk
      obtain ⟨h1, h2, h3, h4, h5, h6⟩ := h.fork j np k hjk
      have hnp : np ≠ e := fun hnp => hji ((hown j np k hjk).1 hnp)
      refine ⟨(hk j (hne j h1)).trans h1, (hk np hnp).trans h2, ?_, ?_, ?_, ?_⟩
      · rw [hj np hnp, hj j (hne j h1)]
        exact h3
      · rw [hj j (hne j h1), horigin np hnp]
        exact h4
      · rw [hj np hnp]
        exact h5
      · rw [hj np hnp]
        exact h6
  · have hfork : ∀ j np k, s'.pc j = .fork np k → (j = i ∧ np = e) ∨ j ≠ i ∧ s.pc j =
      .fork np k := by
      intro j np k hjk
      by_cases hji : j = i
      · subst hji
        rw [hpci] at hjk
        rcases hc with hc | ⟨k', rfl, -⟩
        · rw [hjk] at hc
          cases hc
        · cases hjk
          exact .inl ⟨rfl, rfl⟩
      · exact .inr ⟨hji, hpcj j hji ▸ hjk⟩
    rcases hfork j np k hjk with ⟨rfl, rfl⟩ | ⟨hji, hjk⟩
    · rcases hfork j' np k' hjk' with ⟨rfl, -⟩ | ⟨hji', hjk'⟩
      · rfl
      · exact absurd ((hown j' np k' hjk').1 rfl) hji'
    · rcases hfork j' np k' hjk' with ⟨rfl, rfl⟩ | ⟨hji', hjk'⟩
      · exact absurd ((hown j np k hjk).1 rfl) hji
      · exact h.owner j j' np k k' hjk hjk'
  · refine .inl ?_
    by_cases hee : e' = e
    · subst hee
      rw [hke] at he'
      obtain ⟨k, hk⟩ := hembryo he'
      exact ⟨i, k, hpci.trans hk⟩
    · rw [hk e' hee] at he'
      rcases h.embryo e' he' with ⟨j, k, hjk⟩ | hb
      · have hji : j ≠ i := fun hji => hee ((hown j e' k hjk).2 hji)
        exact ⟨j, k, (hpcj j hji).trans hjk⟩
      · exact absurd (h.boot_done hi) hb
  · obtain ⟨hjk, hje⟩ := hexiting j _ hjk rfl nofun
    rw [hinit, hj j hje]
    exact h.closing j fd hjk
  · obtain ⟨hjk, hje⟩ := hexiting j _ hjk rfl nofun
    rw [hinit, hj j hje]
    exact h.closed j hjk
  · have hji : j ≠ i := by
      rintro rfl
      exact hjk ((hk j hie).trans hi)
    rw [hpcj j hji]
    by_cases hje : j = e
    · subst hje
      exact h.idle j he
    · exact h.idle j (hk j hje ▸ hjk)

theorem allocproc_unused (h : s.allocproc = some (np, s')) : s.kind np = .unused := by
  obtain ⟨e, hf, he⟩ := map_eq_some_iff.1 h
  cases he
  unfold kind
  rw [of_decide_eq_true (find_eq_some hf)]
  rfl

variable (h : Inv s)

include h

/-- `nextpid++` does not overflow. -/
theorem Inv.nextpid_succ (hb : s.allocs + 1 < 2 ^ 31 - 1) :
    int32 (s.nextpid + 1) = s.nextpid + 1 := by
  have hcount := h.count
  unfold int32
  rw [Int.bmod_eq_of_le] <;> omega

theorem Inv.allocproc (hi : s.kind i = .alive) (hp : (s.pc i).plain = true)
    (ha : s.allocproc = some (np, s')) (hb : s'.allocs < 2 ^ 31 - 1) :
    Inv { s'.goto i (.fork np .kalloc) with
      origin := update s.origin np (s.proc i).pid } := by
  have hfree := allocproc_unused ha
  obtain ⟨e, hf, he⟩ := map_eq_some_iff.1 ha
  cases he
  have hcount := h.count
  have hnext := h.nextpid_succ hb
  have hlt := (h.pids i (by rw [hi]; simp)).2
  refine h.entry (e := np) (i := i) hi (by rw [hfree]; simp) rfl rfl ?_ ?_ rfl rfl rfl
    (fun j hj => update_of_ne hj _ _) (fun _ => ⟨?_, ?_, fun j _ hjk => ?_⟩)
    (by simp [ProcState.kind]) (by simp [ProcState.kind]) (by simp [ProcState.kind])
    (fun _ => ⟨_, rfl⟩) (fun j np' k hj => ⟨fun hnp => ?_, fun hji => ?_⟩)
    (.inr ⟨_, rfl, rfl, hlt, update_self .., ?_, fun _ => ?_⟩)
  · change int32 (s.nextpid + 1) = ((s.allocs + 1 : ℕ) : ℤ) + 1
    rw [hnext, hcount]
    push_cast
    rfl
  · change s.nextpid ≤ int32 (s.nextpid + 1)
    rw [hnext]
    omega
  · change 0 < s.nextpid
    omega
  · change s.nextpid < int32 (s.nextpid + 1)
    rw [hnext]
    omega
  · exact (h.pids j hjk).2.ne
  · have := (h.fork j np' k hj).embryo
    rw [hnp, hfree] at this
    cases this
  · rw [← hji, hj] at hp
    cases hp
  · exact h.unused np hfree
  · exact h.files np (.inl hfree)

/-- Only the process in `fork` has the new entry. -/
theorem Inv.fork_owner (hp : s.pc i = .fork np k) :
    ∀ j np' k', s.pc j = .fork np' k' → (np' = np ↔ j = i) := by
  intro j np' k' hj
  constructor
  · rintro rfl
    exact h.owner j i np' k' k hj hp
  · rintro rfl
    rw [hp] at hj
    cases hj
    rfl

/-- A step of `fork` that writes a field of the new entry. -/
theorem Inv.forkWrite {m : ForkAt} {p : Proc} (hp : s.pc i = .fork np k)
    (hstate : p.state = (s.proc np).state) (hpid : p.pid = (s.proc np).pid)
    (hparent : p.parent = if m.hasParent then some i else none)
    (hfiles : m.early = true → p.noFiles) : Inv ((s.set np p).goto i (.fork np m)) := by
  have hf := h.fork i np k hp
  have hk : p.state.kind = .embryo := by rw [hstate]; exact hf.embryo
  refine h.entry (e := np) (i := i) hf.alive (by rw [hf.embryo]; simp) rfl rfl h.count le_rfl rfl
    rfl rfl (fun _ _ => rfl) (fun _ => ⟨?_, ?_, fun j hj hjk hjp => hj ?_⟩) (by simp [hk])
    (by simp [hk]) (by simp [hk]) (fun _ => ⟨_, rfl⟩) (h.fork_owner hp)
    (.inr ⟨m, rfl, hk, hpid ▸ hf.pid, hf.origin, hparent, hfiles⟩)
  · rw [hpid]
    exact (h.pids np (by rw [hf.embryo]; simp)).1
  · rw [hpid]
    exact (h.pids np (by rw [hf.embryo]; simp)).2
  · exact h.inj j np hjk (by rw [hf.embryo]; simp) (hjp.trans hpid)

theorem Inv.forkFail (hp : s.pc i = .fork np k) (hk : k.early = true) :
    Inv ((s.set np { s.proc np with state := .UNUSED }).goto i (.done (-1))) := by
  have hf := h.fork i np k hp
  refine h.entry (e := np) (i := i) hf.alive (by rw [hf.embryo]; simp) rfl rfl h.count le_rfl rfl
    rfl rfl (fun _ _ => rfl) (by simp [ProcState.kind]) (fun _ => hf.files hk) (fun _ => ?_)
    (by simp [ProcState.kind]) (by simp [ProcState.kind]) (h.fork_owner hp) (.inl rfl)
  have := hf.parent
  cases k <;> simp [ForkAt.early, ForkAt.hasParent] at hk this <;> exact this

/-- The child of `fork` becomes `RUNNABLE`. -/
theorem Inv.forkRun (hp : s.pc i = .fork np .run) :
    Inv (((s.set np { s.proc np with state := .RUNNABLE }).goto np .user).goto i
      (.done (s.proc np).pid)) := by
  have hf := h.fork i np .run hp
  have hn : s.kind np ≠ .unused := by rw [hf.embryo]; simp
  refine h.entry (e := np) (i := i) (p := { s.proc np with state := .RUNNABLE })
    (c := .done (s.proc np).pid) hf.alive (by rw [hf.embryo]; simp) rfl ?_ h.count
      le_rfl rfl rfl rfl
    (fun _ _ => rfl) (fun _ => ⟨(h.pids np hn).1, (h.pids np hn).2,
      fun j hj hjk hjp => hj (h.inj j np hjk hn hjp)⟩) (by simp [ProcState.kind])
    (by simp [ProcState.kind]) (fun _ => ⟨i, hf.parent, hf.alive, hf.pid, .inl hf.origin.symm⟩)
    (by simp [ProcState.kind]) (h.fork_owner hp) (.inl rfl)
  have hidle : s.pc np = .user := h.idle np (by rw [hf.embryo]; simp)
  change update (update s.pc np .user) i _ = _
  rw [← hidle, update_eq_self]

/-- A `wait` that finds an exited child. -/
theorem Inv.reap {z : Slot} (hi : s.kind i = .alive) (hp : (s.pc i).plain = true)
    (hz : s.zombieChild i = some z) : Inv (s.wait i) := by
  have hzp : (s.proc z).parent = some i ∧ (s.proc z).state = .ZOMBIE := by
    simpa using find_eq_some hz
  have hzk : s.kind z = .zombie := by
    unfold kind
    rw [hzp.2]
    rfl
  unfold wait
  rw [hz]
  refine h.entry (e := z) (i := i) hi (by rw [hzk]; simp) rfl rfl h.count le_rfl rfl rfl rfl
    (fun _ _ => rfl) (by simp [ProcState.kind]) (fun _ => h.files z (.inr hzk)) (fun _ => rfl)
    (by simp [ProcState.kind]) (by simp [ProcState.kind]) (fun j np k hj => ⟨fun hnp => ?_,
      fun hji => ?_⟩) (.inl rfl)
  · have := (h.fork j np k hj).embryo
    rw [hnp, hzk] at this
    cases this
  · rw [← hji, hj] at hp
    cases hp

/-- A process that changes its own files, in a call or in `exit`. -/
theorem Inv.own {f : Fin NOFILE → Option (Fin NFILE)} {c : Pc} (hi : s.kind i = .alive)
    (hf : OwnFiles s i f c) : Inv ((s.set i { s.proc i with ofile := f }).goto i c) := by
  have hpc := pc_goto (s.set i { s.proc i with ofile := f }) i c
  have hproc : ∀ j, ((s.set i { s.proc i with ofile := f }).goto i c).proc j =
      if j = i then { s.proc i with ofile := f } else s.proc j := fun j => update_apply ..
  have hnot : (∀ np k, s.pc i ≠ .fork np k) ∧ ∀ np k, c ≠ .fork np k := by
    cases hf with
    | exit hp => exact ⟨fun np k hk => by simp [hk, Pc.plain] at hp, by simp⟩
    | _ => simp_all
  generalize hs : (s.set i { s.proc i with ofile := f }).goto i c = s' at hpc hproc ⊢
  refine h.calm (fun j => ?_) (fun j => ?_) (fun j => ?_) (fun j hj => ?_) (fun j np k => ?_)
    (fun j hj => ?_) (fun j fd hj => ?_) (fun j hj => ?_)
    (by subst hs; exact ⟨rfl, rfl, rfl, rfl, rfl, rfl⟩)
  · unfold kind
    rw [hproc]
    split_ifs with hji
    · rw [hji]
    · rfl
  · rw [hproc]
    split_ifs with hji
    · rw [hji]
    · rfl
  · rw [hproc]
    split_ifs with hji
    · rw [hji]
    · rfl
  · rw [hproc, if_neg fun hji : j = i => hj (hji ▸ hi)]
  · rw [hpc]
    split_ifs with hji
    · rw [hji]
      exact iff_of_false (hnot.2 np k) (hnot.1 np k)
    · exact Iff.rfl
  · rw [hpc, if_neg fun hji : j = i => hj (hji ▸ hi)]
    rfl
  · rw [hpc] at hj
    rw [hproc]
    split_ifs at hj ⊢ with hji
    · subst hji
      cases hf with
      | exit hp hr =>
        cases hj
        exact ⟨hr, fun k hk => absurd hk k.val.not_lt_zero⟩
      | close fd' hp =>
        cases hj
        obtain ⟨hr, hfd⟩ := h.closing j fd' hp
        refine ⟨hr, fun k hk => ?_⟩
        dsimp only
        rw [update_apply]
        split_ifs with hkfd
        · rfl
        · exact hfd k ((Nat.lt_succ_iff.1 hk).lt_of_ne fun he => hkfd (Fin.ext he))
      | _ => cases hj
    · exact h.closing j fd hj
  · rw [hpc] at hj
    rw [hproc]
    split_ifs at hj ⊢ with hji
    · subst hji
      cases hf with
      | closed hp hle =>
        obtain ⟨hr, hfd⟩ := h.closing j _ hp
        exact ⟨hr, fun k => hfd k (k.isLt.trans_le hle)⟩
      | _ => cases hj
    · exact h.closed j hj

omit h

theorem reparent1_spec (cur : Slot) (r : Option Slot) (t : Slot → Proc) (p j : Slot) :
    (reparent1 cur r t p j).state.kind = (t j).state.kind ∧
      (reparent1 cur r t p j).pid = (t j).pid ∧ (reparent1 cur r t p j).ofile = (t j).ofile ∧
        (reparent1 cur r t p j).parent =
          if j = p ∧ (t j).parent = some cur then r else (t j).parent := by
  unfold reparent1
  dsimp only
  split_ifs with hp hz hj hj hj
  · obtain ⟨h1, h2, h3, h4⟩ :=
      wakeup1_spec (r.map .proc) (update t p { t p with parent := r }) j
    obtain ⟨rfl, -⟩ := hj
    rw [h1, h2, h3, h4, update_self]
    exact ⟨rfl, rfl, rfl, rfl⟩
  · obtain ⟨h1, h2, h3, h4⟩ :=
      wakeup1_spec (r.map .proc) (update t p { t p with parent := r }) j
    have hjp : j ≠ p := by
      rintro rfl
      exact hj ⟨rfl, hp⟩
    rw [h1, h2, h3, h4, update_of_ne hjp]
    exact ⟨rfl, rfl, rfl, rfl⟩
  · obtain ⟨rfl, -⟩ := hj
    rw [update_self]
    exact ⟨rfl, rfl, rfl, rfl⟩
  · have hjp : j ≠ p := by
      rintro rfl
      exact hj ⟨rfl, hp⟩
    rw [update_of_ne hjp]
    exact ⟨rfl, rfl, rfl, rfl⟩
  · obtain ⟨rfl, h⟩ := hj
    exact absurd h hp
  · exact ⟨rfl, rfl, rfl, rfl⟩

/-- The loop of `exit` gives every child of `cur` to init and changes no kind, `pid` or
file. -/
theorem reparent_spec (cur : Slot) (r : Option Slot) (hr : r ≠ some cur) (t : Slot → Proc)
    (j : Slot) :
    (reparent cur r t j).state.kind = (t j).state.kind ∧ (reparent cur r t j).pid = (t j).pid ∧
      (reparent cur r t j).ofile = (t j).ofile ∧
        (reparent cur r t j).parent =
          if (t j).parent = some cur then r else (t j).parent := by
  have hfold : ∀ (l : List Slot) (t : Slot → Proc),
      (l.foldl (reparent1 cur r) t j).state.kind = (t j).state.kind ∧
      (l.foldl (reparent1 cur r) t j).pid = (t j).pid ∧
      (l.foldl (reparent1 cur r) t j).ofile = (t j).ofile ∧ (l.foldl (reparent1 cur r) t j).parent =
          if j ∈ l ∧ (t j).parent = some cur then r else (t j).parent := by
    intro l
    induction l with
    | nil => simp
    | cons p l ih =>
      intro t
      obtain ⟨h1, h2, h3, h4⟩ := ih (reparent1 cur r t p)
      obtain ⟨g1, g2, g3, g4⟩ := reparent1_spec cur r t p j
      refine ⟨h1.trans g1, h2.trans g2, h3.trans g3, ?_⟩
      rw [List.foldl_cons, h4, g4]
      by_cases hjp : j = p
      · subst hjp
        by_cases hc : (t j).parent = some cur <;> simp [hc, hr]
      · simp [hjp]
  have hall := hfold (List.finRange NPROC) t
  simp only [List.mem_finRange, true_and] at hall
  exact hall

/-- The table after the locked section of `exit`: `i` is a zombie and its children are init's. -/
theorem exitLocked_spec (hri : s.initproc ≠ some i) (j : Slot) :
    ((s.exitLocked i).proc j).pid = (s.proc j).pid ∧
      ((s.exitLocked i).proc j).ofile = (s.proc j).ofile ∧
      ((s.exitLocked i).proc j).parent =
        (if (s.proc j).parent = some i then s.initproc else (s.proc j).parent) ∧
      (s.exitLocked i).kind j = if j = i then .zombie else s.kind j := by
  obtain ⟨h1, h2, h3, h4⟩ := reparent_spec i s.initproc hri
    (wakeup1 ((s.proc i).parent.map .proc) s.proc) j
  obtain ⟨g1, g2, g3, g4⟩ := wakeup1_spec ((s.proc i).parent.map .proc) s.proc j
  rw [g1] at h1
  rw [g2] at h2
  rw [g4] at h3
  rw [g3] at h4
  unfold exitLocked kind
  generalize reparent i s.initproc _ = t at h1 h2 h3 h4 ⊢
  dsimp only
  by_cases hj : j = i
  · subst hj
    rw [update_self, if_pos rfl]
    exact ⟨h2, h3, h4, rfl⟩
  · rw [update_of_ne hj, if_neg hj]
    exact ⟨h2, h3, h4, h1⟩

theorem Inv.exitLocked (h : Inv s) (hi : s.kind i = .alive)
    (hp : s.pc i = .exitLock) : Inv (s.exitLocked i) := by
  obtain ⟨hri, hfi⟩ := h.closed i hp
  obtain ⟨r, hr, hra⟩ := h.init_alive (h.boot_done hi)
  have hne : r ≠ i := by
    rintro rfl
    exact hri hr
  have hspec := exitLocked_spec hri
  simp only [hr] at hspec
  obtain ⟨hnx, hal, hin, hbo, hor, hex, hpc⟩ : (s.exitLocked i).nextpid = s.nextpid ∧
      (s.exitLocked i).allocs = s.allocs ∧ (s.exitLocked i).initproc = s.initproc ∧
      (s.exitLocked i).boot = s.boot ∧ (s.exitLocked i).origin = s.origin ∧
      (s.exitLocked i).exited = s.exited ++ [(s.proc i).pid] ∧
      (s.exitLocked i).pc = update s.pc i .user := ⟨rfl, rfl, rfl, rfl, rfl, rfl, rfl⟩
  generalize s.exitLocked i = s' at *
  have hpid : ∀ j, (s'.proc j).pid = (s.proc j).pid := fun j => (hspec j).1
  have hof : ∀ j, (s'.proc j).ofile = (s.proc j).ofile := fun j => (hspec j).2.1
  have hpar : ∀ j, (s'.proc j).parent = if (s.proc j).parent = some i then some r
      else (s.proc j).parent := fun j => (hspec j).2.2.1
  have hk : ∀ j, j ≠ i → s'.kind j = s.kind j := fun j hj => by rw [(hspec j).2.2.2, if_neg hj]
  have hki : s'.kind i = .zombie := by rw [(hspec i).2.2.2, if_pos rfl]
  have hlive : ∀ j, s'.kind j ≠ .unused → s.kind j ≠ .unused := fun j hj => by
    by_cases hji : j = i
    · rw [hji, hi]
      simp
    · exact hk j hji ▸ hj
  have hfork : ∀ j np k, s'.pc j = .fork np k → j ≠ i ∧ s.pc j = .fork np k := fun j np k hjk => by
    rw [hpc, update_apply] at hjk
    split_ifs at hjk with hji
    exact ⟨hji, hjk⟩
  have hnone : ∀ j, (s.proc j).parent = none → (s'.proc j).parent = none := fun j hj => by
    rw [hpar, hj, if_neg (by simp)]
  refine ⟨by rw [hnx, hal]; exact h.count, fun j hjk => ?_, fun j k hjk hkk hjk' => ?_,
    fun j hjk => ?_, fun j hjk => ?_, fun j hjk hjr => ?_, fun r' hr' => ?_, ?_,
    fun j np k hjk => ?_, fun j j' np k k' hjk hjk' => ?_, fun e he => ?_, fun j fd hjk => ?_,
    fun j hjk => ?_, fun j hjk => ?_⟩
  · rw [hpid, hnx]
    exact h.pids j (hlive j hjk)
  · rw [hpid, hpid] at hjk'
    exact h.inj j k (hlive j hjk) (hlive k hkk) hjk'
  · intro fd
    rw [hof]
    by_cases hji : j = i
    · rw [hji]
      exact hfi fd
    · exact h.files j (hk j hji ▸ hjk) fd
  · have hji : j ≠ i := by
      rintro rfl
      rw [hki] at hjk
      cases hjk
    exact hnone j (h.unused j (hk j hji ▸ hjk))
  · have hold : s.kind j = .alive ∨ s.kind j = .zombie := by
      by_cases hji : j = i
      · exact .inl (hji ▸ hi)
      · exact hk j hji ▸ hjk
    rw [hin] at hjr
    obtain ⟨q, h1, h2, h3, h4⟩ := h.tree j hold hjr
    rw [hpar, h1, hpid, hor, hin, hex]
    by_cases hqi : q = i
    · -- a child of the process that exits, passed to init
      subst hqi
      have hj := h.pids j (by rcases hold with h | h <;> rw [h] <;> simp)
      have hjr' : (s.proc j).pid ≠ (s.proc r).pid := fun hjp => by
        have := h.inj j r (by rcases hold with h | h <;> rw [h] <;> simp) (by rw [hra]; simp) hjp
        exact hjr (this ▸ hr)
      have hr1 := (h.init r hr).2
      refine ⟨r, if_pos rfl, (hk r hne).trans hra, ?_, .inr ⟨hr, ?_⟩⟩
      · rw [hpid]
        omega
      · rcases h4 with h4 | ⟨h4, -⟩
        · rw [← h4]
          exact List.mem_append_right _ (List.mem_singleton_self _)
        · exact absurd h4 hri
    · refine ⟨q, if_neg (by simpa using hqi), (hk q hqi).trans h2, ?_, ?_⟩
      · rw [hpid]
        exact h3
      · rw [hpid]
        exact h4.imp_right fun ⟨h5, h6⟩ => ⟨h5, List.mem_append_left _ h6⟩
  · obtain ⟨h1, h2⟩ := h.init r' (hin ▸ hr')
    rw [hpid]
    exact ⟨hnone r' h1, h2⟩
  · unfold Booting
    rw [hbo, h.boot_done hi]
    exact ⟨r, hin.trans hr, (hk r hne).trans hra⟩
  · obtain ⟨hji, hjk⟩ := hfork j np k hjk
    obtain ⟨h1, h2, h3, h4, h5, h6⟩ := h.fork j np k hjk
    have hnp : np ≠ i := by
      rintro rfl
      rw [hi] at h2
      cases h2
    refine ⟨(hk j hji).trans h1, (hk np hnp).trans h2, ?_, ?_, ?_, fun hk fd => ?_⟩
    · rw [hpid, hpid]
      exact h3
    · rw [hor, hpid]
      exact h4
    · rw [hpar, h5]
      split_ifs with hc hc' hc' <;> simp_all
    · rw [hof]
      exact h6 hk fd
  · exact h.owner j j' np k k' (hfork j np k hjk).2 (hfork j' np k' hjk').2
  · have hei : e ≠ i := by
      rintro rfl
      rw [hki] at he
      cases he
    rw [hbo]
    refine (h.embryo e (hk e hei ▸ he)).imp_left ?_
    rintro ⟨j, k, hjk⟩
    refine ⟨j, k, ?_⟩
    rw [hpc, update_of_ne]
    · exact hjk
    · rintro rfl
      rw [hp] at hjk
      cases hjk
  · rw [hpc, update_apply] at hjk
    split_ifs at hjk
    rw [hin, hof]
    exact h.closing j fd hjk
  · rw [hpc, update_apply] at hjk
    split_ifs at hjk
    obtain ⟨h1, h2⟩ := h.closed j hjk
    exact ⟨hin ▸ h1, fun fd => by rw [hof]; exact h2 fd⟩
  · rw [hpc, update_apply]
    split_ifs with hji
    · rfl
    · exact h.idle j (hk j hji ▸ hjk)

/-- A step of `userinit`, which changes the one entry it has allocated. -/
theorem Inv.first (h : Inv s) {p : Slot} {q : Proc} (hothers : ∀ i, i ≠ p → s.kind i = .unused)
    (hp : s.kind p ≠ .alive) (hproc : s'.proc = update s.proc p q) (hpid : q.pid = 1)
    (hpar : q.parent = none) (hcount : s'.nextpid = s'.allocs + 1) (hnext : 1 < s'.nextpid)
    (hpc : s'.pc = s.pc) (hinit : ∀ r, s'.initproc = some r → r = p)
    (hk : q.state.kind = .embryo ∧ s'.boot ≠ .done ∧ (First s' p → Booting s') ∨
      q.state.kind = .alive ∧ s'.boot = .done ∧ s'.initproc = some p) : Inv s' := by
  have hj : ∀ i, i ≠ p → s'.proc i = s.proc i := fun i hi => by
    rw [hproc, update_of_ne hi]
  have hq : s'.proc p = q := by rw [hproc, update_self]
  have hkj : ∀ i, i ≠ p → s'.kind i = .unused := fun i hi => by
    unfold kind
    rw [hj i hi]
    exact hothers i hi
  have hkp : s'.kind p = q.state.kind := by
    unfold kind
    rw [hq]
  have hlive : ∀ i, s'.kind i ≠ .unused → i = p := fun i hi => by
    by_contra hip
    exact hi (hkj i hip)
  have hnot : s'.kind p ≠ .unused ∧ s'.kind p ≠ .zombie := by
    rw [hkp]
    rcases hk with ⟨h, -⟩ | ⟨h, -⟩ <;> rw [h] <;> simp
  have huser : ∀ i, s'.pc i = .user := fun i => by
    rw [hpc]
    refine h.idle i ?_
    by_cases hip : i = p
    · exact hip ▸ hp
    · rw [hothers i hip]
      simp
  refine ⟨hcount, fun i hi => ?_, fun i j hi hj _ => (hlive i hi).trans (hlive j hj).symm,
    fun i hi => ?_, fun i hi => ?_, fun i hi hr => ?_, fun r hr => ?_, ?_, fun i np k hi => ?_,
    fun i j np k k' hi => ?_, fun e he => ?_, fun i fd hi => ?_, fun i hi => ?_, fun i _ => huser i⟩
  · rw [hlive i hi, hq, hpid]
    exact ⟨one_pos, hnext⟩
  · have hip : i ≠ p := by
      rintro rfl
      exact hi.elim hnot.1 hnot.2
    rw [hj i hip]
    exact h.files i (.inl (hothers i hip))
  · have hip : i ≠ p := by
      rintro rfl
      exact hnot.1 hi
    rw [hj i hip]
    exact h.unused i (hothers i hip)
  · have hip := hlive i (by rcases hi with h | h <;> rw [h] <;> simp)
    subst hip
    rcases hk with ⟨hk, -⟩ | ⟨-, -, hin⟩
    · rw [hkp, hk] at hi
      simp at hi
    · exact absurd hin hr
  · rw [hinit r hr, hq]
    exact ⟨hpar, hpid⟩
  · rcases hk with ⟨hk, -, hb⟩ | ⟨hk, hb, hin⟩
    · exact hb ⟨hkp.trans hk, hkj, by rw [hq]; exact hpid, by rw [hq]; exact hpar⟩
    · unfold Booting
      rw [hb]
      exact ⟨p, hin, hkp.trans hk⟩
  · rw [huser] at hi
    cases hi
  · rw [huser] at hi
    cases hi
  · rcases hk with ⟨-, hb, -⟩ | ⟨hk, -⟩
    · exact .inr hb
    · rw [hlive e (by rw [he]; simp), hkp, hk] at he
      cases he
  · rw [huser] at hi
    cases hi
  · rw [huser] at hi
    cases hi

/-- **Every step keeps the invariant**, as long as `nextpid` does not wrap around. -/
theorem Inv.step (h : Inv s) {a : Act} (hs : s.step a = some (.ok s'))
    (hb : s'.allocs < 2 ^ 31 - 1) : Inv s' := by
  have hboot := h.boot
  unfold Booting at hboot
  have hnext : ∀ {p}, First s p → 1 < s.nextpid := fun {p} hp => by
    have := (h.pids p (by rw [hp.embryo]; simp)).2
    rwa [hp.pid] at this
  have hcall : ∀ {i}, s.pc i = .entered ∨ s.pc i = .waiting → (s.pc i).plain = true := by
    rintro i (hp | hp) <;> rw [hp] <;> rfl
  cases effect_of_step hs with
  | start hpt ha =>
    rw [hpt] at hboot
    obtain ⟨hall, hnone, hone⟩ := hboot
    obtain ⟨e, -, he⟩ := map_eq_some_iff.1 ha
    cases he
    have hnx : int32 (s.nextpid + 1) = 2 := by rw [hone]; rfl
    have hcount := h.count
    refine h.first (fun i _ => hall i) (by rw [hall]; simp) rfl hone (h.unused _ (hall _)) ?_ ?_ rfl
      (fun r hr => ?_) (.inl ⟨rfl, by simp, fun hf => ⟨hf, hnone⟩⟩)
    · change int32 (s.nextpid + 1) = ((s.allocs + 1 : ℕ) : ℤ) + 1
      omega
    · change 1 < int32 (s.nextpid + 1)
      omega
    · change s.initproc = some r at hr
      rw [hnone] at hr
      cases hr
  | kalloc hpt =>
    rw [hpt] at hboot
    obtain ⟨hf, hnone⟩ := hboot
    refine h.first hf.others (by rw [hf.embryo]; simp) (update_eq_self _ s.proc).symm hf.pid
      hf.parent h.count (hnext hf) rfl
      (fun r hr => ?_) (.inl ⟨hf.embryo, by simp, fun hf => ⟨hf, hnone⟩⟩)
    change s.initproc = some r at hr
    rw [hnone] at hr
    cases hr
  | setup hpt =>
    rw [hpt] at hboot
    obtain ⟨hf, -⟩ := hboot
    exact h.first hf.others (by rw [hf.embryo]; simp) rfl hf.pid hf.parent h.count
      (hnext hf) rfl (fun r hr => (some.inj hr).symm)
      (.inl ⟨hf.embryo, by simp, fun hf => ⟨hf, rfl⟩⟩)
  | run hpt =>
    rw [hpt] at hboot
    obtain ⟨hf, hin⟩ := hboot
    exact h.first hf.others (by rw [hf.embryo]; simp) rfl hf.pid hf.parent h.count
      (hnext hf) rfl (fun r hr => some.inj (hr.symm.trans hin)) (.inr ⟨rfl, rfl, hin⟩)
  | set hp =>
    exact h.quiet (.of_set rfl hp.kind hp.pid hp.parent hp.ofile fun _ => .inl rfl)
  | goto hr hp hc => exact h.quiet (.of_goto hr.alive hp hc)
  | wakeup =>
    exact h.quiet ⟨fun i => (wakeup1_spec _ _ i).1, fun i => (wakeup1_spec _ _ i).2.1,
      fun i => (wakeup1_spec _ _ i).2.2.1, fun i => (wakeup1_spec _ _ i).2.2.2, fun _ => .inl rfl,
      rfl, rfl, rfl, rfl, rfl, rfl⟩
  | fault =>
    exact h.quiet (.of_set rfl rfl rfl rfl rfl fun _ => .inl rfl)
  | own hr hf => exact h.own hr.alive hf
  | alloc hr hp ha => exact h.allocproc hr.alive (hcall (.inl hp)) ha hb
  | forkNext hp hw =>
    have hf := h.fork _ _ _ hp
    refine h.forkWrite hp hw.state hw.pid (hw.parent hf.parent) fun hm => ?_
    unfold Proc.noFiles
    rw [(hw.files hm).2]
    exact hf.files (hw.files hm).1
  | forkFail hp hk => exact h.forkFail hp hk
  | forkRun hp => exact h.forkRun hp
  | exitLocked hr hp => exact h.exitLocked hr.alive hp
  | reap hr hp hz => exact h.reap hr.alive (hcall hp) hz
  | wait hr hp hz =>
    exact h.quiet (.of_set rfl hr.alive.symm rfl rfl rfl (Quiet.goto hr.alive (hcall hp) rfl))
  | kill hr hp =>
    refine h.quiet (.of_set rfl ?_ rfl rfl rfl (Quiet.goto hr.alive (hcall (.inl hp)) rfl))
    unfold kind
    dsimp only
    split_ifs with hsl
    · rw [hsl]
      rfl
    · rfl
  | nice hr hp =>
    exact h.quiet (.of_set rfl rfl rfl rfl rfl (Quiet.goto hr.alive (hcall (.inl hp)) rfl))

theorem allocproc_allocs (h : s.allocproc = some (np, s')) : s'.allocs = s.allocs + 1 := by
  obtain ⟨e, -, he⟩ := map_eq_some_iff.1 h
  cases he
  rfl

/-- The number of allocations never decreases. -/
theorem allocs_mono {a : Act} (hs : s.step a = some (.ok s')) : s.allocs ≤ s'.allocs := by
  cases effect_of_step hs with
  | start hb ha => exact (allocproc_allocs ha).ge.trans' (Nat.le_succ _)
  | alloc hr hp ha => exact (allocproc_allocs ha).ge.trans' (Nat.le_succ _)
  | reap hr hp hz =>
    unfold wait
    rw [hz]
    exact le_rfl
  | _ => exact le_rfl

/-- The invariant holds in every state reached with fewer than `2^31 - 1` allocations. -/
theorem inv_of_reaches (h : Reaches State.step State.init s) (hb : s.allocs < 2 ^ 31 - 1) : Inv s :=
  Reaches.inv (I := fun s => s.allocs < 2 ^ 31 - 1 → Inv s)
    (fun _ _ _ hi hs hb => (hi ((allocs_mono hs).trans_lt hb)).step hs hb) h (fun _ => inv_init) hb

end Xv6.Ptable
