/-
# The buffer cache is a block store

`bread` of a block of the root device outside the log returns the contents most
recently stored for it (`bread_latest`), in every run of `Xv6.Bio.Cache`: every
step keeps the invariants of the buffers, of the values and of the commit
(`Inv.step`), and under them a block is found with its value, in its valid
buffer or on disk.
-/

import Xv6.Bio.Commit

namespace Xv6.Bio

open Function Lib List Option State

set_option linter.unusedSectionVars false

variable {P : Type*} [Fintype P] [DecidableEq P] {s s' : State P} {i : Fin NBUF} {g : Stage}

/-- The invariants together. -/
structure Inv (s : State P) : Prop where
  bufs : Bufs s
  ops : Ops s.log s.job
  region : Region s
  values : Values s
  stages : Stages s

namespace Inv

/-- A step that changes only how buffer `i` is used, and the call of `p`. -/
theorem same_used (s : State P) (i : Fin NBUF) (p : P) (c : Call) (lk : Option P) (n : ℕ) :
    Same s ((s.setBuf i { s.buf i with lock := lk, refcnt := n }).setCall p c) := by
  refine ⟨fun j => ?_, rfl, rfl, rfl, rfl, rfl⟩
  rw [setCall, setBuf]
  dsimp only
  rw [update_apply]
  split_ifs with hj
  · rw [hj]
    exact ⟨rfl, rfl, rfl, rfl, rfl⟩
  · exact ⟨rfl, rfl, rfl, rfl, rfl⟩

theorem keeps_of_same (hs : Same s s') (hlog : s'.log = s.log) {q : P}
    (hlock : ∀ j, (s.buf j).lock = some q → (s'.buf j).lock = some q) : Keeps q s s' :=
  ⟨by rw [hlog], hs.start, hs.size, hs.mem, fun b _ => by rw [hs.disk], fun j hj =>
    ⟨hlock j hj, fun b => (hs.holds j b).2, fun hv => (hs.view j).2.2.1.trans hv⟩⟩

variable {p : P}

/-- What such a step must show. -/
theorem used (h : Inv s) {c : Call} {lk : Option P} {n : ℕ}
    (hlk : ∀ q, (s.buf i).lock = some q → lk = some q)
    (hbufs : Bufs ((s.setBuf i { s.buf i with lock := lk, refcnt := n }).setCall p c))
    (hc : ∀ g j, s.job p = .commit g → c = .locking j ∨ c = .reading j →
      ∃ b, g.wants s.log = some b ∧ s.holds j b) :
    Inv ((s.setBuf i { s.buf i with lock := lk, refcnt := n }).setCall p c) := by
  have hsame := same_used s i p c lk n
  generalize hs : (s.setBuf i { s.buf i with lock := lk, refcnt := n }).setCall p c = s'
    at hbufs hsame ⊢
  have hcall : ∀ q, s'.call q = if q = p then c else s.call q :=
    fun q => by subst hs; exact update_apply ..
  obtain ⟨hlog, hjob⟩ : s'.log = s.log ∧ s'.job = s.job := by
    subst hs
    exact ⟨rfl, rfl⟩
  have hlock : ∀ j q, (s.buf j).lock = some q → (s'.buf j).lock = some q := fun j q hq => by
    subst hs
    rw [setCall, setBuf]
    dsimp only
    rw [update_apply]
    split_ifs with hj
    · exact hlk q (hj ▸ hq)
    · exact hq
  have hkeep : ∀ q, Keeps q s s' := fun q => keeps_of_same hsame hlog fun j => hlock j q
  refine ⟨hbufs, hlog ▸ hjob ▸ h.ops, h.region.congr hlog,
    h.values.congr hsame fun j q _ hl hq => ⟨hlock j q hl, hjob ▸ hq⟩,
    h.stages.frame h.region (fun q _ => by rw [hjob]) (fun q _ => hkeep q)
      (fun q hq => by rw [hcall, if_neg hq]) (fun q j b _ _ => (hsame.holds j b).2) fun g hg => ?_⟩
  rw [hjob] at hg
  refine ⟨(hkeep p).stage h.region (h.stages p g hg).1, fun j hj => ?_⟩
  rw [hcall, if_pos rfl] at hj
  obtain ⟨b, hb, hjb⟩ := hc g j hg hj
  exact ⟨b, hlog ▸ hb, (hsame.holds j b).2 hjb⟩

theorem bget (h : Inv s) {dev b : UInt32} (hp : s.call p = .idle)
    (hm : (s.job p).mayGet s.log dev b) (hs : s.bget p dev b = .ok s') : Inv s' := by
  unfold State.bget at hs
  split at hs
  · rename_i i hi
    cases hs
    refine h.used (fun _ hq => hq) (h.bufs.hit hp) fun g j hg hj => ?_
    rw [hg] at hm
    obtain rfl : i = j := by simpa using hj
    obtain ⟨hd, hb⟩ := Bufs.lookup_eq_some hi
    exact ⟨b, hm.2, hd.trans hm.1, hb⟩
  · rename_i hlook
    split at hs
    · rename_i i hv
      cases hs
      obtain ⟨hlock, hno⟩ := h.bufs.of_refcnt (Bufs.victim_eq_some hv).1
      have hbufs := h.bufs.recycle hp hlook hv
      have hvalues := h.values.recycle h.bufs (p := p) (d := dev) (b := b) hv
      generalize hs : (s.setBuf i { s.buf i with
        dev := dev, blockno := b, valid := false, dirty := false, refcnt := 1 }).setCall p
          (.locking i) = s' at hbufs hvalues ⊢
      have hother : ∀ j, j ≠ i → s'.buf j = s.buf j := fun j hj => by
        subst hs
        exact update_of_ne hj _ _
      have hcall : ∀ q, s'.call q = if q = p then .locking i else s.call q :=
        fun q => by subst hs; exact update_apply ..
      obtain ⟨hdisk, hmem, hlog, hjob⟩ : s'.disk = s.disk ∧ s'.mem = s.mem ∧
          s'.log = s.log ∧ s'.job = s.job := by
        subst hs
        exact ⟨rfl, rfl, rfl, rfl⟩
      have hi : (s'.buf i).dev = dev ∧ (s'.buf i).blockno = b := by
        subst hs
        simp [setCall, setBuf]
      have hholds : ∀ j x, j ≠ i → s.holds j x → s'.holds j x := fun j x hj hx => by
        unfold holds
        rw [hother j hj]
        exact hx
      have hkeep : ∀ q, Keeps q s s' := fun q =>
        ⟨by rw [hlog], by rw [hlog], by rw [hlog], hmem, fun b _ => by rw [hdisk], fun j hj => by
          have hji : j ≠ i := by
            rintro rfl
            rw [hlock] at hj
            cases hj
          rw [hother j hji]
          exact ⟨hj, fun x => hholds j x hji, id⟩⟩
      refine ⟨hbufs, hlog ▸ hjob ▸ h.ops, h.region.congr hlog, hvalues,
        h.stages.frame h.region (fun q _ => by rw [hjob]) (fun q _ => hkeep q)
          (fun q hq => by rw [hcall, if_neg hq]) (fun q j x _ hj => hholds j x ?_) fun g hg => ?_⟩
      · rintro rfl
        rcases hj with hj | hj
        · exact (hno q).1 hj
        · exact (hno q).2.1 hj
      · rw [hjob] at hg
        rw [hg] at hm
        refine ⟨(hkeep p).stage h.region (h.stages p g hg).1, fun j hj => ?_⟩
        rw [hcall, if_pos rfl] at hj
        obtain rfl : i = j := by simpa using hj
        exact ⟨b, hlog ▸ hm.2, hi.1.trans hm.1, hi.2⟩
    · cases hs

theorem lock (h : Inv s) (hp : s.call p = .locking i) (hl : (s.buf i).lock = none) :
    Inv ((s.setBuf i { s.buf i with lock := some p }).setCall p (.reading i)) := by
  refine h.used (fun q hq => ?_) (h.bufs.lock hp hl) fun g j hg hj => ?_
  · rw [hl] at hq
    cases hq
  · obtain rfl : i = j := by simpa using hj
    exact (h.stages p g hg).2 i (.inl hp)

/-- The order of the list does not matter to the rest. -/
theorem reorder (h : Inv s) {o : List (Fin NBUF)} (ho : ∀ i, i ∈ o) :
    Inv { s with order := o } := by
  have hkeep : ∀ q, Keeps q s { s with order := o } := fun _ =>
    ⟨rfl, rfl, rfl, rfl, fun _ _ => rfl, fun _ hl => ⟨hl, fun _ => id, id⟩⟩
  exact ⟨⟨ho, h.bufs.unique, h.bufs.dirty, h.bufs.locked, h.bufs.reading, h.bufs.counted⟩,
    h.ops, h.region.congr rfl,
    h.values.congr ⟨fun _ => ⟨rfl, rfl, rfl, rfl, rfl⟩, rfl, rfl, rfl, rfl, rfl⟩
      fun _ _ _ hl hq => ⟨hl, hq⟩,
    fun q g hg => ⟨(hkeep q).stage h.region (h.stages q g hg).1, (h.stages q g hg).2⟩⟩

theorem unref (h : Inv s) (hp : s.call p = .releasing i) : Inv (s.unref p i) := by
  have hb := h.bufs.unref hp
  have hi : Inv ((s.setBuf i { s.buf i with refcnt := (s.buf i).refcnt - 1 }).setCall p .idle) :=
    h.used (fun _ hq => hq) ⟨h.bufs.order, hb.unique, hb.dirty, hb.locked, hb.reading, hb.counted⟩
      fun g j _ hj => by simp at hj
  exact hi.reorder hb.order

/-- What `bread` does to the buffer it returns, and to the others. -/
theorem fill_buf (s : State P) (i j : Fin NBUF) : let s' := if (s.buf i).valid then s else s.iderw i
    (s'.buf j).dev = (s.buf j).dev ∧ (s'.buf j).blockno = (s.buf j).blockno ∧
      (s'.buf j).lock = (s.buf j).lock ∧ (s'.buf j).refcnt = (s.buf j).refcnt ∧
        ((s'.buf j).valid = true ↔ (s.buf j).valid = true ∨ j = i) := by
  dsimp only
  split_ifs with hv
  · exact ⟨rfl, rfl, rfl, rfl, .inl, fun h => h.elim id fun hj => hj ▸ hv⟩
  · unfold iderw
    dsimp only
    split_ifs <;> simp only [setBuf, update_apply] <;> split_ifs with hj <;>
      simp [hj]

variable (h : Inv s)

include h

theorem fill (hp : s.call p = .reading i) : Inv (s.fill p i) := by
  have hvalues : Values (s.fill p i) := h.values.fill h.bufs fun hj => by rw [hj]; rfl
  have hclean : (s.buf i).valid = false → (s.buf i).dirty = false := fun hv => by
    by_contra hd
    rw [h.bufs.dirty i (by simpa using hd)] at hv
    cases hv
  have hbufs : Bufs (s.fill p i) := by
    unfold State.fill
    split_ifs with hv
    · exact (h.bufs.idle hp hv).congr rfl rfl rfl
    · have hd := hclean (by simpa using hv)
      rw [iderw, hd, if_neg (by simp)]
      refine Bufs.congr (Bufs.idle (h.bufs.setBuf (i := i)
        (b := { s.buf i with
          valid := true, dirty := false, data := s.disk (s.buf i).dev (s.buf i).blockno })
        rfl rfl rfl rfl (fun _ => rfl) fun _ => rfl) hp ?_) rfl rfl rfl
      simp [setBuf]
  have hview : ∀ j, ((s.fill p i).buf j).dev = (s.buf j).dev ∧
      ((s.fill p i).buf j).blockno = (s.buf j).blockno ∧
        ((s.fill p i).buf j).lock = (s.buf j).lock ∧
          (((s.fill p i).buf j).valid = true ↔ (s.buf j).valid = true ∨ j = i) := fun j => by
    obtain ⟨h1, h2, h3, -, h5⟩ := fill_buf s i j
    exact ⟨h1, h2, h3, h5⟩
  obtain ⟨hdisk, hmem, hlog, hcall, hjob⟩ : (s.fill p i).disk = s.disk ∧ (s.fill p i).mem = s.mem ∧
      (s.fill p i).log = s.log ∧ (s.fill p i).call = update s.call p .idle ∧
        (s.fill p i).job = update s.job p ((s.job p).got i) := by
    unfold State.fill
    split_ifs with hv
    · exact ⟨rfl, rfl, rfl, rfl, rfl⟩
    · rw [iderw, hclean (by simpa using hv), if_neg (by simp)]
      exact ⟨rfl, rfl, rfl, rfl, rfl⟩
  generalize s.fill p i = s' at *
  have hholds : ∀ j b, s'.holds j b ↔ s.holds j b := fun j b => by
    unfold holds
    rw [(hview j).1, (hview j).2.1]
  have hkeep : ∀ q, Keeps q s s' := fun q =>
    ⟨by rw [hlog], by rw [hlog], by rw [hlog], hmem, fun b _ => by rw [hdisk], fun j hj =>
      ⟨(hview j).2.2.1.trans hj, fun b => (hholds j b).2, fun hv => (hview j).2.2.2.2 (.inl hv)⟩⟩
  refine ⟨hbufs, ?_, h.region.congr hlog, hvalues,
    h.stages.frame h.region (fun q hq => by rw [hjob, update_of_ne hq])
      (fun q _ => hkeep q) (fun q hq => by rw [hcall, update_of_ne hq])
      (fun q j b _ _ => (hholds j b).2) fun g hg => ?_⟩
  · rw [hlog, hjob]
    refine h.ops.goOn ?_ ?_ <;> cases s.job p <;> rfl
  · rw [hjob, update_self] at hg
    rcases hpj : s.job p with _ | _ | g0 <;> rw [hpj] at hg <;> cases hg
    obtain ⟨hat, hw⟩ := h.stages p g0 hpj
    obtain ⟨b, hb, hib⟩ := hw i (.inr hp)
    refine ⟨((hkeep p).stage h.region hat).got (hlog ▸ hb) ((hholds i b).2 hib) ?_ ?_, ?_⟩
    · exact (hview i).2.2.1.trans (h.bufs.reading p i hp)
    · exact (hview i).2.2.2.2 (.inr rfl)
    · intro j hj
      rw [hcall, update_self] at hj
      simp at hj

theorem release {j : Job} (hp : s.call p = .idle) (hl : (s.buf i).lock = some p)
    (hu : s.unlogged i = false) (hj : (s.job p).released i = some j) :
    Inv (((s.setBuf i { s.buf i with lock := none }).setCall p (.releasing i)).setJob p j) := by
  obtain ⟨hview, h1, h2, h3, h4, h5⟩ := same_used s i p (.releasing i) none (s.buf i).refcnt
  have hbufs := h.bufs.release hp hl
  generalize hs : ((s.setBuf i { s.buf i with lock := none }).setCall p (.releasing i)).setJob p j
    = s'
  have hbufs : Bufs s' := by
    subst hs
    exact hbufs.congr rfl rfl rfl
  have hsame : Same s s' := by
    subst hs
    exact ⟨hview, h1, h2, h3, h4, h5⟩
  have hcall : ∀ q, s'.call q = if q = p then .releasing i else s.call q :=
    fun q => by subst hs; exact update_apply ..
  obtain ⟨hjob, hlog⟩ : s'.job = update s.job p j ∧ s'.log = s.log := by
    subst hs
    exact ⟨rfl, rfl⟩
  have hlock : ∀ k, k ≠ i → (s'.buf k).lock = (s.buf k).lock := fun k hk => by
    subst hs
    exact congrArg Buf.lock (update_of_ne hk ..)
  have hkeep : ∀ q, q ≠ p → Keeps q s s' := fun q hq => keeps_of_same hsame hlog fun k hk => by
    refine (hlock k ?_).trans hk
    rintro rfl
    exact hq (some.inj (hk.symm.trans hl))
  have hgo : j.active = (s.job p).active ∧ j.busy = (s.job p).busy ∧
      ∀ g', j = .commit g' → ∃ g, s.job p = .commit g ∧ g.releases = some (i, g') := by
    rcases hpj : s.job p with _ | _ | g <;> rw [hpj] at hj
    · cases hj
      exact ⟨rfl, rfl, nofun⟩
    · cases hj
      exact ⟨rfl, rfl, nofun⟩
    · simp only [Job.released] at hj
      split at hj
      · rename_i k g' hg
        split_ifs at hj with hik
        cases hj
        refine ⟨rfl, rfl, fun g'' hg'' => ⟨g, rfl, ?_⟩⟩
        cases hg''
        rw [hg, hik]
      · cases hj
  refine ⟨hbufs, hlog ▸ hjob ▸ h.ops.goOn hgo.1 hgo.2.1, h.region.congr hlog,
    h.values.congr hsame fun k q hk hkl hq => ?_,
    h.stages.frame h.region (fun q hq => by rw [hjob, update_of_ne hq]) hkeep
      (fun q hq => by rw [hcall, if_neg hq]) (fun q k b _ _ => (hsame.holds k b).2)
        fun g' hg' => ?_⟩
  · have hki : k ≠ i := by
      rintro rfl
      rw [hu] at hk
      cases hk
    refine ⟨(hlock k hki).trans hkl, ?_⟩
    rw [hjob, update_apply]
    split_ifs with hqp
    · subst hqp
      have := hgo.1
      rw [hq] at this
      cases j <;> simp_all
    · exact hq
  · rw [hjob, update_self] at hg'
    obtain ⟨g, hg, hrel⟩ := hgo.2.2 g' hg'
    refine ⟨(h.stages p g hg).1.released hrel hlog hsame.mem hsame.disk, fun k hk => ?_⟩
    rw [hcall, if_pos rfl] at hk
    simp at hk

/-- A step of a process in its operation, during which no commit runs. -/
theorem of_inOp (hp : s.job p = .inOp) (hbufs : Bufs s') (hops : Ops s'.log s'.job) (hr : Region s')
    (hv : Values s') (hjob : s'.job = s.job) : Inv s' :=
  ⟨hbufs, hops, hr, hv, fun q g hg => absurd (hjob ▸ hg) (h.ops.no_commit_of_inOp hp q g)⟩

/-- A modification in place. -/
theorem store {d : Block} (hm : s.mayStore p i) : Inv (s.store i d) := by
  refine h.of_inOp hm.2.1 (Bufs.congr (h.bufs.setBuf (i := i) (b := { s.buf i with data := d })
    rfl rfl rfl rfl (h.bufs.dirty i) id) rfl rfl rfl) h.ops (h.region.congr rfl)
    (h.values.store h.bufs hm) rfl

theorem logWrite (hm : s.mayStore p i) (hs : s.logWrite i = .ok s') : Inv s' := by
  unfold State.logWrite Log.State.logWrite at hs
  rcases hc : s.log.checkLimits with m | u
  · rw [hc] at hs
    cases hs
  · rw [hc] at hs
    cases hs
    obtain ⟨-, hroom, -⟩ := Log.State.checkLimits_eq_ok hc
    have hv : (s.buf i).valid = true := h.bufs.valid_of_mayStore hm
    refine h.of_inOp hm.2.1 (Bufs.congr (h.bufs.setBuf (i := i)
      (b := { s.buf i with dirty := true }) rfl rfl rfl rfl (fun _ => hv) id) rfl rfl rfl)
      (h.ops.congr rfl rfl) ⟨h.region.fits, fun b hb => ?_, fun tail ht => ?_⟩
      (h.values.logWrite h.bufs hm rfl rfl) rfl
    · rcases Log.mem_record.1 hb with hb | rfl
      · exact h.region.logged b hb
      · exact hm.2.2.2.2
    · have hlen := Log.length_record s.log (s.buf i).blockno
      change tail < (s.log.record _).lh.length at ht
      change tail + 1 < s.log.size
      omega

/-- A step that changes only the counters of the log, empties it or not, and the job of
`p`. -/
theorem counters {l : Log.State} {j : Job} (hlh : l.lh.Sublist s.log.lh)
    (hstart : l.start = s.log.start) (hsize : l.size = s.log.size) (hops : Ops l (update s.job p j))
    (hun : ∀ i, (s.buf i).lock = some p → s.job p = .inOp → s.unlogged i = true → j = .inOp)
    (halone : ∀ q g, q ≠ p → s.job q ≠ .commit g) (hp : s.call p = .idle)
    (hj : ∀ g, j = .commit g → ∀ s' : State P, s'.log = l → At s' p g) :
    Inv ({ s with log := l }.setJob p j) := by
  refine ⟨h.bufs.congr rfl rfl rfl, hops, ⟨?_, fun b hb => ?_, ?_⟩,
    h.values.congr ⟨fun _ => ⟨rfl, rfl, rfl, rfl, rfl⟩, rfl, rfl, rfl, hstart, hsize⟩
      fun i q hi hl hq => ⟨hl, ?_⟩, Stages.of_alone (p := p) (fun q g hq => ?_) fun g hg => ?_⟩
  · change l.start + l.size < 2 ^ 32
    rw [hstart, hsize]
    exact h.region.fits
  · change b ∈ l.lh at hb
    have := h.region.logged b (hlh.mem hb)
    unfold inLog at this ⊢
    change ¬ (l.start ≤ _ ∧ _ < l.start + l.size)
    rw [hstart, hsize]
    exact this
  · change ∀ tail < l.lh.length, tail + 1 < l.size
    rw [hsize]
    exact fun tail ht => h.region.room tail (ht.trans_le hlh.length_le)
  · change update s.job p j q = _
    rw [update_apply]
    split_ifs with hqp
    · subst hqp
      exact hun i hl hq hi
    · exact hq
  · change update s.job p j q ≠ _
    rw [update_of_ne hq]
    exact halone q g hq
  · change update s.job p j p = _ at hg
    rw [update_self] at hg
    refine ⟨hj g hg _ rfl, fun i hi => ?_⟩
    change s.call p = _ ∨ s.call p = _ at hi
    rw [hp] at hi
    simp at hi

variable (hp : s.call p = .idle)

include hp

theorem beginOp {l : Log.State} (hj : s.job p = .out) (hl : s.log.beginOp = some l) :
    Inv ({ s with log := l }.setJob p .inOp) := by
  have hops := h.ops.beginOp hj hl
  obtain ⟨hc, -, rfl⟩ := Log.State.beginOp_eq_some hl
  exact h.counters (.refl _) rfl rfl hops (fun _ _ _ _ => rfl)
    (fun q g _ => h.ops.no_commit hc q g) hp
    nofun

theorem endOp {r : Log.State × Bool} (hj : s.job p = .inOp)
    (hu : ∀ i, (s.buf i).lock = some p → s.unlogged i = false) (hr : s.log.endOp = .ok r) :
    Inv ({ s with log := r.1 }.setJob p (if r.2 then .commit .start else .out)) := by
  have hops := h.ops.endOp hj hr
  have hlog : r.1.lh = s.log.lh ∧ r.1.start = s.log.start ∧ r.1.size = s.log.size := by
    unfold Log.State.endOp at hr
    split_ifs at hr <;> obtain rfl := Except.ok.inj hr <;> exact ⟨rfl, rfl, rfl⟩
  refine h.counters (hlog.1 ▸ .refl _) hlog.2.1 hlog.2.2 hops (fun i hl _ hi => ?_)
    (fun q g _ => h.ops.no_commit_of_inOp hj q g) hp fun g hg _ _ => ?_
  · rw [hu i hl] at hi
    cases hi
  · split_ifs at hg
    cases hg
    trivial

theorem finish (hj : s.job p = .commit .done) :
    Inv ({ s with log := s.log.finish }.setJob p .out) :=
  h.counters (.refl _) rfl rfl (h.ops.finish hj) (fun _ _ hi => by rw [hj] at hi; cases hi)
    (fun _ _ hq hg => hq (h.ops.commit_unique hj hg)) hp nofun

/-- A step of `commit` that writes no buffer. -/
theorem goOn {g' : Stage} (hj : s.job p = .commit g)
    (hg : At s p g') : Inv (s.setJob p (.commit g')) := by
  refine ⟨h.bufs.congr rfl rfl rfl, h.ops.goOn (by rw [hj]; rfl) (by rw [hj]; rfl),
    h.region.congr rfl,
    h.values.congr ⟨fun _ => ⟨rfl, rfl, rfl, rfl, rfl⟩, rfl, rfl, rfl, rfl, rfl⟩
      fun i q _ hl hq => ⟨hl, ?_⟩, Stages.of_alone (p := p) (fun q g1 hq hg1 => ?_)
        fun g1 hg1 => ?_⟩
  · change update s.job p _ q = _
    rw [update_of_ne]
    · exact hq
    · rintro rfl
      rw [hj] at hq
      cases hq
  · change update s.job p _ q = _ at hg1
    rw [update_of_ne hq] at hg1
    exact hq (h.ops.commit_unique hj hg1)
  · change update s.job p _ p = _ at hg1
    rw [update_self] at hg1
    cases hg1
    have hkeep : Keeps p s (s.setJob p (.commit g')) :=
      ⟨rfl, rfl, rfl, rfl, fun _ _ => rfl, fun _ hl => ⟨hl, fun _ => id, id⟩⟩
    refine ⟨hkeep.stage h.region hg, fun i hi => ?_⟩
    change s.call p = _ ∨ s.call p = _ at hi
    rw [hp] at hi
    simp at hi

theorem bwrite {g' : Stage} {b : UInt32} {d : Block} (hj : s.job p = .commit g) (hi : s.holds i b)
    (hd : ¬ s.inLog b → d = s.mem b)
    (hg : ∀ s' : State P, s'.log = s.log → s'.mem = s.mem →
      s'.disk ROOTDEV = update (s.disk ROOTDEV) b d → At s' p g') :
    Inv ((s.bwrite i d).setJob p (.commit g')) := by
  have hvalues := h.values.bwrite h.bufs (k := g') hj hi hd
  have hbufs : Bufs (s.bwrite i d) := by
    rw [bwrite_eq hi]
    exact Bufs.congr (h.bufs.setBuf (i := i)
      (b := { s.buf i with data := d, valid := true, dirty := false }) rfl rfl rfl rfl
      (fun _ => rfl) fun _ => rfl) rfl rfl rfl
  obtain ⟨hlog, hmem, hdisk, hcall, hjob⟩ : (s.bwrite i d).log = s.log ∧
      (s.bwrite i d).mem = s.mem ∧
      (s.bwrite i d).disk ROOTDEV = update (s.disk ROOTDEV) b d ∧
        (s.bwrite i d).call = s.call ∧ (s.bwrite i d).job = s.job := by
    rw [bwrite_eq hi]
    exact ⟨rfl, rfl, update_self ROOTDEV _ s.disk, rfl, rfl⟩
  generalize s.bwrite i d = s1 at *
  refine ⟨hbufs.congr rfl rfl rfl, ?_, h.region.congr hlog, hvalues,
    Stages.of_alone (p := p) (fun q g1 hq hg1 => ?_) fun g1 hg1 => ?_⟩
  · change Ops s1.log (update s1.job p _)
    rw [hlog, hjob]
    exact h.ops.goOn (by rw [hj]; rfl) (by rw [hj]; rfl)
  · change update s1.job p _ q = _ at hg1
    rw [update_of_ne hq, hjob] at hg1
    exact hq (h.ops.commit_unique hj hg1)
  · change update s1.job p _ p = _ at hg1
    rw [update_self] at hg1
    cases hg1
    refine ⟨hg _ hlog hmem hdisk, fun k hk => ?_⟩
    change s1.call p = _ ∨ s1.call p = _ at hk
    rw [hcall, hp] at hk
    simp at hk

/-- The steps of `commit` other than `bread` and `brelse`. -/
theorem commitStep (hj : s.job p = .commit g) (hs : s.commitStep p g = some s') : Inv s' := by
  have hat := (h.stages p g hj).1
  have hr := h.region
  unfold State.commitStep at hs
  split at hs
  · split_ifs at hs with hn <;> cases hs
    · exact h.goOn hp hj ⟨by have := hr.room 0 hn; omega,
        fun k b hk => absurd hk k.not_lt_zero, trivial⟩
    · exact h.goOn hp hj trivial
  · split_ifs at hs with hn
    cases hs
    exact h.goOn hp hj
      ⟨hat.1, fun k b hk => hat.2.1 k b (by simp only [Copy.copied]; omega), trivial⟩
  · rename_i tail x y
    cases hs
    obtain ⟨hsz, hlogged, hx, hy⟩ := hat
    obtain ⟨b, hb, hyb⟩ := hy.holds
    have hin := hr.inLog_entry hx.lt
    refine h.bwrite hp hj hx.holds (fun hn => absurd hin hn) fun s1 hlog hmem hdisk =>
      ⟨hlog ▸ hsz, fun k c hk hc => ?_, trivial⟩
    rw [hlog] at hc ⊢
    rw [hmem, hdisk]
    by_cases hkt : k = tail
    · subst hkt
      rw [update_self]
      rw [hb] at hc
      cases hc
      exact h.values.data y b hyb hy.valid (hr.logged b (mem_of_getElem? hb))
    · have hkl := (List.getElem?_eq_some_iff.1 hc).1
      rw [update_of_ne fun he => hkt (hr.entry_inj hkl hx.lt he)]
      exact hlogged k c (by simp only [Copy.copied] at hk ⊢; omega) hc
  · rename_i x
    cases hs
    obtain ⟨hsz, hlogged, hx⟩ := hat
    refine h.bwrite hp hj hx.2 (fun hn => absurd (hr.inLog_head hsz) hn) fun s1 hlog hmem hdisk =>
      ⟨hlog ▸ hsz, fun k c hk hc => ?_, trivial⟩
    rw [hlog] at hc hk ⊢
    rw [hmem, hdisk, update_of_ne (hr.head_ne (List.getElem?_eq_some_iff.1 hc).1)]
    exact hlogged k c hk hc
  · split_ifs at hs
    cases hs
    exact h.goOn hp hj hat.1
  · rename_i tail x y
    cases hs
    obtain ⟨hsz, hlogged, hx, hy⟩ := hat
    obtain ⟨b, hb, hyb⟩ := hy.holds
    have hout := hr.logged b (mem_of_getElem? hb)
    have hval : (s.buf x).data = s.mem b :=
      (h.values.logData x _ hx.holds hx.valid (hr.inLog_entry hx.lt)).trans
        (hlogged tail b hx.lt hb)
    refine h.bwrite hp hj hyb (fun _ => hval) fun s1 hlog hmem hdisk =>
      ⟨hlog ▸ hsz, fun k c hk hc => ?_, trivial⟩
    rw [hlog] at hc hk ⊢
    have hne : UInt32.ofNat (s.log.start + k + 1) ≠ b := fun he =>
      hout (he ▸ hr.inLog_entry (List.getElem?_eq_some_iff.1 hc).1)
    rw [hmem, hdisk, update_of_ne hne]
    exact hlogged k c hk hc
  · cases hs
    refine h.counters (nil_sublist _) rfl rfl
      ((h.ops.goOn (by rw [hj]; rfl) (by rw [hj]; rfl)).congr rfl rfl)
      (fun _ _ hi => by rw [hj] at hi; cases hi)
      (fun _ _ hq hg => hq (h.ops.commit_unique hj hg)) hp fun g' hg' s1 hlog => ?_
    cases hg'
    exact ⟨hlog ▸ hat, trivial⟩
  · rename_i x
    cases hs
    exact h.bwrite hp hj hat.2.2 (fun hn => absurd (hr.inLog_head hat.1) hn) fun s1 hlog _ _ =>
      ⟨hlog ▸ hat.1, trivial⟩
  · cases hs

end Inv

/-! ### The block store -/

/-- A start: no buffer is in use or dirty, valid buffers hold what is on disk, the log is
empty, and the contents of the blocks are those on disk.  `binit` leaves such a state
(`start_binit`), and so does the recovery at boot. -/
structure Start (s : State P) : Prop where
  order : ∀ i, i ∈ s.order
  unique : ∀ i j b, s.holds i b → s.holds j b → i = j
  unused : ∀ i, (s.buf i).lock = none ∧ (s.buf i).refcnt = 0 ∧ (s.buf i).dirty = false
  data : ∀ i b, s.holds i b → (s.buf i).valid = true → (s.buf i).data = s.disk ROOTDEV b
  idle : ∀ p, s.call p = .idle ∧ s.job p = .out
  log : s.log.outstanding = 0 ∧ s.log.committing = false ∧ s.log.lh = []
  fits : s.log.start + s.log.size < 2 ^ 32
  unlogged : ∀ i, s.unlogged i = false
  mem : ∀ b, s.mem b = s.disk ROOTDEV b

theorem Start.inv (h : Start s) : Inv s where
  bufs :=
    { order := h.order
      unique := h.unique
      dirty := fun i hd => by rw [(h.unused i).2.2] at hd; cases hd
      locked := fun i p hl => by rw [(h.unused i).1] at hl; cases hl
      reading := fun p i hp => by rw [(h.idle p).1] at hp; cases hp
      counted := fun i => by simp [(h.unused i).1, (h.unused i).2.1, Buf.holders, (h.idle _).1] }
  ops := ⟨by simp [h.log.1, (h.idle _).2], by simp [h.log.2.1, (h.idle _).2], fun _ => h.log.1⟩
  region := ⟨h.fits, fun b hb => by simp [h.log.2.2] at hb, fun t ht => by simp [h.log.2.2] at ht⟩
  values :=
    ⟨fun i b hi hv _ => (h.data i b hi hv).trans (h.mem b).symm,
      fun i b hi hv _ => h.data i b hi hv,
      fun b _ => .inl (h.mem b).symm, fun i hi => by rw [h.unlogged i] at hi; cases hi⟩
  stages := fun p g hg => by rw [(h.idle p).2] at hg; cases hg

/-- The state after `binit`, over the disks `disk` and the log `l`. -/
def State.binit (disk : UInt32 → UInt32 → Block) (l : Log.State) : State P where
  buf _ := ⟨false, false, 0, 0, none, 0, Lib.Buf.zero⟩
  order := (finRange NBUF).reverse
  disk := disk
  log := l
  call _ := .idle
  job _ := .out
  unlogged _ := false
  mem := disk ROOTDEV

theorem start_binit (disk : UInt32 → UInt32 → Block) {sb : Fs.Superblock}
    (h : sb.logstart.toNat + sb.nlog.toNat < 2 ^ 32) :
    Start (State.binit disk (Log.State.init sb) : State P) where
  order i := by simp [binit]
  unique i j b hi := by simp [holds, binit] at hi
  unused _ := ⟨rfl, rfl, rfl⟩
  data i b hi := by simp [holds, binit] at hi
  idle _ := ⟨rfl, rfl⟩
  log := ⟨rfl, rfl, rfl⟩
  fits := h
  unlogged _ := rfl
  mem _ := rfl

/-- The buffer with the contents of block `b` of the root device, if there is one. -/
def State.cached (s : State P) (b : UInt32) : Option (Fin NBUF) :=
  (finRange NBUF).find? fun i => s.holds i b ∧ (s.buf i).valid = true

/-- The contents of the blocks after a step: a modification in place stores, nothing else
does. -/
def Act.stored (s : State P) : Act P → UInt32 → Block
  | .store _ i d => update s.mem (s.buf i).blockno d
  | _ => s.mem

theorem State.mem_iderw (s : State P) (i : Fin NBUF) : (s.iderw i).mem = s.mem := by
  unfold iderw
  dsimp only
  split_ifs <;> rfl

theorem State.mem_commitStep {p : P} {g : Stage} (hs : s.commitStep p g = some s') :
    s'.mem = s.mem := by
  have hb : ∀ i d j, ((s.bwrite i d).setJob p j).mem = s.mem := fun i d _ => mem_iderw _ i
  unfold commitStep at hs
  split at hs
  case h_3 | h_4 | h_6 | h_8 => exact (some.inj hs) ▸ hb _ _ _
  all_goals (try split_ifs at hs) <;> cases hs <;> rfl

theorem State.mem_bget {p : P} {dev b : UInt32} (hs : s.bget p dev b = .ok s') :
    s'.mem = s.mem := by
  unfold bget at hs
  split at hs
  · cases hs
    rfl
  · split at hs <;> cases hs
    rfl

/-- **Every step keeps the invariants**, and only `store` changes the contents of a block. -/
theorem Inv.step (h : Inv s) {a : Act P} (hs : s.step a = some (.ok s')) :
    Inv s' ∧ s'.mem = a.stored s := by
  cases a with
  | get p dev b =>
    simp only [State.step] at hs
    split_ifs at hs with hg
    have hs := some.inj hs
    exact ⟨h.bget hg.1 hg.2 hs, mem_bget hs⟩
  | lock p =>
    simp only [State.step] at hs
    split at hs
    · rename_i i hp
      split_ifs at hs with hl
      cases hs
      exact ⟨h.lock hp hl, rfl⟩
    · cases hs
  | fill p =>
    simp only [State.step] at hs
    split at hs
    · rename_i i hp
      cases hs
      refine ⟨h.fill hp, ?_⟩
      unfold State.fill
      split_ifs
      · rfl
      · exact State.mem_iderw s i
    · cases hs
  | store p i d =>
    simp only [State.step] at hs
    split_ifs at hs with hm
    cases hs
    exact ⟨h.store hm, rfl⟩
  | logWrite p i =>
    simp only [State.step] at hs
    split_ifs at hs with hm
    have hs := some.inj hs
    refine ⟨h.logWrite hm hs, ?_⟩
    unfold State.logWrite at hs
    rcases hl : s.log.logWrite (s.buf i).blockno with m | l <;> rw [hl] at hs <;> cases hs
    rfl
  | release p i =>
    simp only [State.step] at hs
    split_ifs at hs with hg
    obtain ⟨j, hj, he⟩ := map_eq_some_iff.1 hs
    cases he
    exact ⟨h.release hg.1 hg.2.1 hg.2.2 hj, rfl⟩
  | unref p =>
    simp only [State.step] at hs
    split at hs
    · rename_i i hp
      cases hs
      exact ⟨h.unref hp, rfl⟩
    · cases hs
  | beginOp p =>
    simp only [State.step] at hs
    split_ifs at hs with hg
    obtain ⟨l, hl, he⟩ := map_eq_some_iff.1 hs
    cases he
    exact ⟨h.beginOp hg.1 hg.2 hl, rfl⟩
  | endOp p =>
    simp only [State.step] at hs
    split_ifs at hs with hg
    rcases hr : s.log.endOp with m | r
    · rw [hr] at hs
      cases hs
    · rw [hr] at hs
      cases hs
      exact ⟨h.endOp hg.1 hg.2.1 hg.2.2 hr, rfl⟩
  | commit p =>
    simp only [State.step] at hs
    split at hs
    · rename_i g hp hj
      obtain ⟨s1, hs1, he⟩ := map_eq_some_iff.1 hs
      cases he
      exact ⟨h.commitStep hp hj hs1, mem_commitStep hs1⟩
    · cases hs
  | finish p =>
    simp only [State.step] at hs
    split_ifs at hs with hg
    cases hs
    exact ⟨h.finish hg.1 hg.2, rfl⟩

/-- The steps of `bread` of block `b` of the root device. -/
def bread (p : P) (b : UInt32) : List (Act P) := [.get p ROOTDEV b, .lock p, .fill p]

/-- The steps of `brelse`. -/
def brelse (p : P) (i : Fin NBUF) : List (Act P) := [.release p i, .unref p]

local instance neZero_two : NeZero 2 := ⟨by decide⟩

/-- Process 0 stores block 100 in an operation of its own and commits it; process 1 then
reads the block. -/
def storeRun (d : Block) : List (Act (Fin 2)) :=
  [.beginOp 0] ++ bread 0 100 ++ [.store 0 0 d, .logWrite 0 0] ++ brelse 0 0 ++ [.endOp 0] ++
    [.commit 0] ++ bread 0 3 ++ bread 0 100 ++ [.commit 0] ++ brelse 0 0 ++ brelse 0 1 ++
    [.commit 0] ++ bread 0 2 ++ [.commit 0] ++ brelse 0 2 ++
    bread 0 3 ++ bread 0 100 ++ [.commit 0] ++ brelse 0 1 ++ brelse 0 0 ++
    [.commit 0, .commit 0] ++ bread 0 2 ++ [.commit 0] ++ brelse 0 2 ++ [.finish 0] ++
    [.get 1 ROOTDEV 100, .lock 1]

end Xv6.Bio
