/-
# What a crash leaves of the block store

The processes of `Xv6.Bio.Cache` run, and the machine stops between any two of their
steps.  `Act.durable` says what is safe then: the header write of `commit` makes the
contents in memory durable, and nothing else does.  `crash_recovers` says that
`recover_from_log` brings back exactly the durable contents, so what a crash leaves
is the memory at a moment when no operation was in progress.

`Phase` joins the disk to the stage of the commit, and the four writes of `commit` are
the cases of `Log.Redo`: `scratch`, the commit point (`redo_publish`), `home` and `clear`.
-/

import Xv6.Bio.Store
import Xv6.Log.Crash
import Xv6.Log.Group

namespace Xv6.Bio

open Function Lib List Log Option State

set_option linter.unusedSectionVars false

variable {P : Type*} [Fintype P] [DecidableEq P] {s s' : State P} {i : Fin NBUF} {g g' : Stage}
  {b : UInt32} {D f : UInt32 → Block} {v : Block} {p : P}

/-- The blocks of a device, by number. -/
def asDisk (f : UInt32 → Block) : Disk := fun n =>
  if n < 2 ^ 32 then f (UInt32.ofNat n) else Lib.Buf.zero

theorem asDisk_toNat (f : UInt32 → Block) (b : UInt32) : asDisk f b.toNat = f b := by
  rw [asDisk, if_pos b.toNat_lt, UInt32.ofNat_toNat]

theorem asDisk_congr {n : ℕ} (h : ∀ b : UInt32, b.toNat = n → D b = f b) :
    asDisk D n = asDisk f n := by
  rw [asDisk, asDisk]
  split_ifs with hn
  · exact h _ (UInt32.toNat_ofNat_of_lt' hn)
  · rfl

theorem asDisk_update : asDisk (update f b v) = applyWrites (asDisk f) [(b.toNat, v)] := by
  funext n
  rw [applyWrites_cons, applyWrites_nil]
  by_cases hn : n = b.toNat
  · rw [hn, update_self, asDisk_toNat, update_self]
  · rw [update_of_ne hn]
    refine asDisk_congr fun c hc => update_of_ne ?_ _ _
    rintro rfl
    exact hn hc.symm

/-- The log, as `recover_from_log` finds it. -/
def State.region (s : State P) : Log.Region := ⟨s.log.start, s.log.size⟩

/-- The durable contents after a step: the header write of `commit` makes those in memory
durable. -/
def Act.durable (s : State P) (D : UInt32 → Block) : Act P → UInt32 → Block
  | .commit p =>
      match s.job p with
      | .commit (.writeHead (.write _)) => s.mem
      | _ => D
  | _ => D

/-- A step, with the durable contents beside the state. -/
def durableStep (x : State P × (UInt32 → Block)) (a : Act P) :
    Option (Except String (State P × (UInt32 → Block))) :=
  (x.1.step a).map fun r => r.map fun s => (s, a.durable x.1 x.2)

/-! ### The disk and the stage of the commit -/

/-- Buffer `i` is dirty, with block `b` of the root device. -/
def State.pins (s : State P) (i : Fin NBUF) (b : UInt32) : Prop :=
  s.holds i b ∧ (s.buf i).dirty = true

section Phase

variable (s D)

/-- The header on disk names no block. -/
def Clean : Prop := readHead (asDisk (s.disk ROOTDEV) s.log.start) = []

/-- The contents in memory are durable. -/
def Saved : Prop := ∀ b, ¬ s.inLog b → D b = s.mem b

/-- Only blocks in `l` have dirty buffers. -/
def Pinned (l : List UInt32) : Prop := ∀ i b, s.pins i b → b ∈ l

/-- What holds at a stage of the commit. -/
def Phase : Stage → Prop
  | .writeHead (.release _) => Saved s D ∧ Pinned s s.log.lh
  | .installTrans tail c => Saved s D ∧ Pinned s (s.log.lh.drop (c.copied tail))
  | .clear => Saved s D ∧ Pinned s []
  | .eraseHead .read | .eraseHead (.write _) => Saved s D ∧ Pinned s [] ∧ s.log.lh = []
  | .eraseHead (.release _) | .done => Clean s ∧ Pinned s [] ∧ s.log.lh = []
  | _ => Clean s ∧ Pinned s s.log.lh

/-- The disk stands for the durable contents `D`. -/
structure Durable : Prop where
  redo : Redo s.region (asDisk (s.disk ROOTDEV)) (asDisk D)
  nodup : s.log.lh.Nodup
  fits : s.log.lh.length ≤ LOGSIZE
  busy : ∀ p g, s.job p = .commit g → Phase s D g
  idle : s.log.committing = false → Phase s D .start ∧ (s.log.outstanding = 0 → s.log.lh = [])

end Phase

theorem Phase.got (h : Phase s D g) : Phase s D (g.got i) := by
  unfold Stage.got
  split <;> exact h

theorem Phase.released (h : Phase s D g) (hg : g.releases = some (i, g')) : Phase s D g' := by
  unfold Stage.releases at hg
  split at hg <;> cases hg <;> exact h

namespace Durable

/-- A step that uses buffers leaves the disk and the log as they are. -/
theorem used (h : Durable s D) {B : Fin NBUF → Buf P} {o : List (Fin NBUF)} {c : P → Call}
    {J : P → Job} (hpins : ∀ i b, State.pins { s with buf := B } i b → s.pins i b)
    (hJ : ∀ q g, J q = .commit g → Phase s D g) :
    Durable { s with buf := B, order := o, call := c, job := J } D := by
  have hph : ∀ g, Phase s D g → Phase { s with buf := B, order := o, call := c, job := J } D g := by
    intro g hg
    have hp : ∀ {l}, Pinned s l → Pinned { s with buf := B } l := fun hl i b hi =>
      hl i b (hpins i b hi)
    unfold Phase at hg ⊢
    split at hg
    all_goals first
      | exact ⟨hg.1, hp hg.2⟩
      | exact ⟨hg.1, hp hg.2.1, hg.2.2⟩
  exact ⟨h.redo, h.nodup, h.fits, fun q g hq => hph g (hJ q g hq),
    fun hc => ⟨hph _ (h.idle hc).1, (h.idle hc).2⟩⟩

/-- A step of the commit of `p`. -/
theorem goOn {D' : UInt32 → Block} (h : Durable s D) (ho : Ops s.log s.job)
    (hj : s.job p = .commit g) (hjob : s'.job = update s.job p (.commit g'))
    (hc : s'.log.committing = s.log.committing) (hlh : s'.log.lh.Sublist s.log.lh)
    (hredo : Redo s'.region (asDisk (s'.disk ROOTDEV)) (asDisk D')) (hph : Phase s' D' g') :
    Durable s' D' := by
  refine ⟨hredo, hlh.nodup h.nodup, hlh.length_le.trans h.fits, fun q k hq => ?_, fun hn => ?_⟩
  · rw [hjob, update_apply] at hq
    split_ifs at hq with hqp
    · cases hq
      exact hph
    · exact absurd (ho.commit_unique hj hq) hqp
  · exact absurd hj (ho.no_commit (hc.symm.trans hn) p g)

end Durable

/-- Changing buffer `i` leaves the other dirty buffers. -/
theorem pins_update {x : Buf P} {k : Fin NBUF} (hx : x.dirty = true →
    (s.buf i).dirty = true ∧ (s.buf i).dev = x.dev ∧ (s.buf i).blockno = x.blockno)
    (h : State.pins { s with buf := update s.buf i x } k b) : s.pins k b := by
  unfold State.pins State.holds at *
  by_cases hk : k = i
  · subst hk
    simp only [update_self] at h
    obtain ⟨hd, h1, h2⟩ := hx h.2
    exact ⟨⟨h1.trans h.1.1, h2.trans h.1.2⟩, hd⟩
  · simpa only [update_of_ne hk] using h

/-! ### The writes of a commit -/

/-- With no operation in progress, a block without a dirty buffer is on disk. -/
theorem Inv.disk_eq (hi : Inv s) (hop : ∀ q, s.job q ≠ .inOp) (hb : ¬ s.inLog b)
    (hn : ∀ i, ¬ s.pins i b) : s.disk ROOTDEV b = s.mem b := by
  rcases hi.values.home b hb with hd | ⟨i, hib, -, hd | hu⟩
  · exact hd
  · exact absurd ⟨hib, hd⟩ (hn i)
  · obtain ⟨q, -, hq⟩ := hi.values.unlogged i hu
    exact absurd hq (hop q)

section Writes

variable {x : Fin NBUF} (hi : Inv s) (hj : s.job p = .commit g)

include hi hj

theorem Inv.not_inOp (q : P) : s.job q ≠ .inOp := fun hq => hi.ops.no_commit_of_inOp hq p g hj

/-- The header write of `commit` is that of `Log.afterHead`. -/
theorem asDisk_head (hp : s.call p = .idle) (hx : HeadAt s p (.write x)) (h0 : 0 < s.log.size) :
    asDisk (update (s.disk ROOTDEV) (UInt32.ofNat s.log.start)
      (Log.writeHead s.log.lh (s.buf x).data)) =
        afterHead s.region s.log.lh (asDisk (s.disk ROOTDEV)) := by
  have hstart := hi.region.toNat h0
  rw [add_zero] at hstart
  have hdata : (s.buf x).data = asDisk (s.disk ROOTDEV) s.log.start := by
    rw [← hstart, asDisk_toNat]
    refine hi.values.logData x _ hx.2 ?_ (hi.region.inLog_head h0)
    rcases hi.bufs.locked x p hx.1 with hr | hv
    · rw [hp] at hr
      cases hr
    · exact hv
  rw [asDisk_update, hstart, hdata]
  rfl

/-- **The header write is the commit point**: the disk stands for what is in memory. -/
theorem redo_publish (h : Durable s D) (hpin : ∀ i b, s.pins i b → b ∈ s.log.lh)
    (h0 : 0 < s.log.size) (hlog : Logged s s.log.lh.length) :
    Redo s.region (afterHead s.region s.log.lh (asDisk (s.disk ROOTDEV))) (asDisk s.mem) := by
  have hh : readHead (afterHead s.region s.log.lh (asDisk (s.disk ROOTDEV)) s.region.start) =
    s.log.lh := readHead_afterHead h.fits _
  constructor <;> rw [hh]
  · exact h.nodup
  · by_contra hn
    have := hi.region.room (s.log.lh.length - 1)
    change ¬ _ < s.log.size at hn
    omega
  · exact hi.region.logged
  · intro k hk
    have hn := hi.region.toNat (hi.region.room k hk)
    rw [afterHead_of_ne (by omega), asDisk_toNat]
    change _ = asDisk _ (s.log.start + (k + 1))
    rw [← hn, asDisk_toNat]
    exact (hlog k _ hk (getElem?_eq_getElem hk)).symm
  · rintro n hn hno
    rw [afterHead_of_ne]
    · refine asDisk_congr fun b hb => (hi.disk_eq (hi.not_inOp hj) ?_ fun i hib => ?_).symm
      · rwa [← hb] at hn
      · exact hno b (hpin i b hib) hb
    · rintro rfl
      exact hn h.redo.start_mem

/-- A `bwrite` of the commit of `p`: one block changes, and buffer `x` is clean. -/
theorem Durable.bwrite {D' : UInt32 → Block} (h : Durable s D) (hx : s.holds x b)
    (hredo : Redo s.region (asDisk (update (s.disk ROOTDEV) b v)) (asDisk D'))
    (hph : ∀ d B, d ROOTDEV = update (s.disk ROOTDEV) b v →
      (∀ k c, State.pins { s with buf := B } k c → k ≠ x ∧ s.pins k c) →
        Phase { s with disk := d, buf := B } D' g') :
    Durable ((s.bwrite x v).setJob p (.commit g')) D' := by
  have hd : update s.disk ROOTDEV (update (s.disk ROOTDEV) b v) ROOTDEV = _ := update_self ..
  rw [bwrite_eq hx]
  generalize update s.disk ROOTDEV (update (s.disk ROOTDEV) b v) = d at hd ⊢
  rw [← hd] at hredo
  refine h.goOn hi.ops hj rfl rfl (.refl _) hredo (hph d _ hd fun k c hk =>
    ⟨?_, pins_update (fun hd => by cases hd) hk⟩)
  rintro rfl
  have hd := hk.2
  simp [setJob, setBuf] at hd

end Writes

/-- Every step of a commit leaves the disk standing for the durable contents. -/
theorem Durable.commitStep (h : Durable s D) (hi : Inv s) (hp : s.call p = .idle)
    (hj : s.job p = .commit g) (hs : s.commitStep p g = some s') :
    Durable s' (Act.durable s D (.commit p)) := by
  have hat := (hi.stages p g hj).1
  have hph := h.busy p g hj
  have hr := hi.region
  unfold State.commitStep at hs
  split at hs <;> simp only [Act.durable, hj]
  · split_ifs at hs with hn <;> cases hs
    · exact h.goOn hi.ops hj rfl rfl (.refl _) h.redo hph
    · have hlh := eq_nil_of_length_eq_zero (Nat.eq_zero_of_not_pos hn)
      exact h.goOn hi.ops hj rfl rfl (.refl _) h.redo ⟨hph.1, hlh ▸ hph.2, hlh⟩
  · split_ifs at hs with hn
    cases hs
    exact h.goOn hi.ops hj rfl rfl (.refl _) h.redo hph
  · rename_i tail x y
    cases hs
    obtain ⟨h0, -, hx, -⟩ := hat
    have hw : ∀ w ∈ [((UInt32.ofNat (s.log.start + tail + 1)).toNat, (s.buf y).data)],
        s.region.Mem w.1 ∧ w.1 ≠ s.log.start := fun w hw => by
      rw [mem_singleton.1 hw]
      refine ⟨hr.inLog_entry hx.lt, ?_⟩
      rw [add_assoc, hr.toNat (hr.room tail hx.lt)]
      omega
    obtain ⟨hredo, hclean⟩ := h.redo.scratch hph.1 hw
    rw [← asDisk_update] at hredo hclean
    refine h.bwrite hi hj hx.holds hredo fun d B hd hpin =>
      ⟨?_, fun k c hk => hph.2 k c (hpin k c hk).2⟩
    rw [← hd] at hclean
    exact hclean
  · rename_i x
    cases hs
    obtain ⟨h0, hlogged, hx⟩ := hat
    refine h.bwrite hi hj hx.2 ?_ fun d B _ hpin =>
      ⟨fun _ _ => rfl, fun k c hk => hph.2 k c (hpin k c hk).2⟩
    rw [asDisk_head hi hj hp hx h0]
    exact redo_publish hi hj h hph.2 h0 hlogged
  · split_ifs at hs with hn
    cases hs
    refine h.goOn hi.ops hj rfl rfl (.refl _) h.redo ⟨hph.1, fun k c hk => ?_⟩
    rw [← drop_eq_nil_of_le (Nat.le_of_not_lt hn)]
    exact hph.2 k c hk
  · rename_i tail x y
    cases hs
    obtain ⟨h0, hlogged, hx, hy⟩ := hat
    obtain ⟨b, hb, hyb⟩ := hy.holds
    have hout := hr.logged b (mem_of_getElem? hb)
    have hval : (s.buf x).data = s.mem b :=
      (hi.values.logData x _ hx.holds hx.valid (hr.inLog_entry hx.lt)).trans
        (hlogged tail b hx.lt hb)
    refine h.bwrite hi hj hyb ?_ fun d B _ hpin => ⟨hph.1, fun k c hk => ?_⟩
    · rw [asDisk_update]
      refine h.redo.home fun w hw => ?_
      rw [mem_singleton.1 hw]
      exact ⟨hout, by rw [asDisk_toNat, hval, hph.1 b hout]⟩
    · obtain ⟨hne, hk⟩ := hpin k c hk
      obtain ⟨ht, rfl⟩ := List.getElem?_eq_some_iff.1 hb
      have hc : c ∈ s.log.lh.drop tail := hph.2 k c hk
      rw [drop_eq_getElem_cons ht] at hc
      refine (mem_cons.1 hc).resolve_left ?_
      rintro rfl
      exact hne (hi.bufs.unique k y _ hk.1 hyb)
  · cases hs
    exact h.goOn hi.ops hj rfl rfl (nil_sublist _) h.redo ⟨hph.1, hph.2, rfl⟩
  · rename_i x
    cases hs
    obtain ⟨hsaved, hpin, hlh⟩ := hph
    have hhead := asDisk_head hi hj hp hat.2 hat.1
    refine h.bwrite hi hj hat.2.2 ?_ fun d B hd hpin' =>
      ⟨?_, fun k c hk => hpin k c (hpin' k c hk).2, hlh⟩
    · rw [hhead, hlh]
      refine h.redo.clear fun n hn => asDisk_congr fun b hb => ?_
      rw [← hb] at hn
      rw [hi.disk_eq (hi.not_inOp hj) hn fun i hib => not_mem_nil (hpin i b hib), hsaved b hn]
    · change readHead (asDisk (d ROOTDEV) _) = []
      rw [hd, hhead, hlh]
      exact readHead_afterHead (Nat.zero_le _) _
  · cases hs

/-! ### Every step -/

/-- Every step leaves the disk standing for the durable contents. -/
theorem Durable.step (h : Durable s D) (hi : Inv s) {a : Act P}
    (hs : s.step a = some (.ok s')) : Durable s' (a.durable s D) := by
  have hmoved : ∀ p j, (∀ g, j = .commit g → Phase s D g) → ∀ q g, update s.job p j q = .commit g →
      Phase s D g := fun p j hj q g hq => by
    rw [update_apply] at hq
    split_ifs at hq
    · exact hj g hq
    · exact h.busy q g hq
  cases a with
  | get p dev b | lock p | unref p =>
    simp only [State.step, State.bget] at hs
    repeat' split at hs
    all_goals cases hs
    all_goals first
      | exact h.used (fun _ _ => pins_update fun hd => ⟨hd, rfl, rfl⟩) h.busy
      | exact h.used (fun _ _ => pins_update fun hd => by cases hd) h.busy
  | fill p =>
    simp only [State.step] at hs
    split at hs
    · rename_i i hp
      cases hs
      have hJ := hmoved p ((s.job p).got i) fun g hg => by
        rcases hpj : s.job p with _ | _ | k <;> rw [hpj] at hg <;> cases hg
        exact (h.busy p k hpj).got
      unfold State.fill State.iderw
      dsimp only
      split_ifs with hv hd
      · exact h.used (fun _ _ => id) hJ
      · exact absurd (hi.bufs.dirty i hd) hv
      · exact h.used (fun _ _ => pins_update fun hd' => absurd hd' hd) hJ
    · cases hs
  | release p i =>
    simp only [State.step] at hs
    split_ifs at hs with hg
    obtain ⟨j, hj, he⟩ := map_eq_some_iff.1 hs
    cases he
    refine h.used (fun _ _ => pins_update fun hd => ⟨hd, rfl, rfl⟩) (hmoved p j fun g' hg' => ?_)
    rw [hg'] at hj
    rcases hpj : s.job p with _ | _ | g <;> simp only [hpj, Job.released] at hj
    · cases hj
    · cases hj
    · split at hj
      · rename_i k g' hk
        split_ifs at hj with hik
        cases hj
        exact (h.busy p g hpj).released hk
      · cases hj
  | commit p =>
    simp only [State.step] at hs
    split at hs
    · rename_i g hp hj
      obtain ⟨s1, hs1, he⟩ := map_eq_some_iff.1 hs
      cases he
      exact h.commitStep hi hp hj hs1
    · cases hs
  | store p i d =>
    simp only [State.step] at hs
    split_ifs at hs with hm
    cases hs
    obtain ⟨hc, h0⟩ := hi.ops.idle_of_inOp hm.2.1
    refine ⟨h.redo, h.nodup, h.fits, fun q g hq => absurd hq (hi.ops.no_commit hc q g),
      fun _ => ⟨⟨(h.idle hc).1.1, fun k b hk => (h.idle hc).1.2 k b ?_⟩, fun hz => absurd hz h0⟩⟩
    exact pins_update (x := { s.buf i with data := d }) (fun hd => ⟨hd, rfl, rfl⟩) hk
  | logWrite p i =>
    simp only [State.step] at hs
    split_ifs at hs with hm
    have hs := some.inj hs
    unfold State.logWrite Log.State.logWrite at hs
    rcases hlim : s.log.checkLimits with m | u <;> rw [hlim] at hs <;> cases hs
    have hlt := (Log.State.checkLimits_eq_ok hlim).1
    have hlen := length_record s.log (s.buf i).blockno
    obtain ⟨hc, h0⟩ := hi.ops.idle_of_inOp hm.2.1
    refine ⟨h.redo, nodup_record h.nodup _, hlen.trans hlt,
      fun q g hq => absurd hq (hi.ops.no_commit hc q g),
      fun _ => ⟨⟨(h.idle hc).1.1, fun k b hk => mem_record.2 ?_⟩, fun hz => absurd hz h0⟩⟩
    by_cases hki : k = i
    · subst hki
      have hb := hk.1.2
      simp only [setBuf, update_self] at hb
      exact .inr hb.symm
    · refine .inl ((h.idle hc).1.2 k b ?_)
      unfold State.pins State.holds at hk ⊢
      simpa only [setBuf, update_of_ne hki] using hk
  | beginOp p =>
    simp only [State.step] at hs
    split_ifs at hs with hg
    obtain ⟨l, hl, he⟩ := map_eq_some_iff.1 hs
    cases he
    obtain ⟨hc, -, rfl⟩ := Log.State.beginOp_eq_some hl
    refine ⟨h.redo, h.nodup, h.fits, hmoved p .inOp fun _ hj => (by cases hj),
      fun _ => ⟨(h.idle hc).1, fun hz => ?_⟩⟩
    have := hi.ops.outstanding
    change s.log.outstanding + 1 = 0 at hz
    omega
  | endOp p =>
    simp only [State.step] at hs
    split_ifs at hs with hg
    unfold Log.State.endOp at hs
    split_ifs at hs with hc hlast <;> cases hs
    · refine ⟨h.redo, h.nodup, h.fits, hmoved p (.commit .start) fun g hg => ?_,
        fun hc => by cases hc⟩
      cases hg
      exact (h.idle (by simpa using hc)).1
    · exact ⟨h.redo, h.nodup, h.fits, hmoved p .out fun _ hj => (by cases hj),
        fun hc => ⟨(h.idle hc).1, fun hz => absurd hz hlast⟩⟩
  | finish p =>
    simp only [State.step] at hs
    split_ifs at hs with hg
    cases hs
    obtain ⟨hclean, hpin, hlh⟩ := h.busy p _ hg.2
    exact ⟨h.redo, h.nodup, h.fits, hmoved p .out fun _ hj => (by cases hj),
      fun _ => ⟨⟨hclean, fun k b hk => absurd (hpin k b hk) not_mem_nil⟩, fun _ => hlh⟩⟩

theorem Start.durable (h : Start s) (hsize : 0 < s.log.size) (hc : Clean s) : Durable s s.mem where
  redo := Redo.of_clean hsize hc fun _ _ => asDisk_congr fun b _ => h.mem b
  nodup := by simp [h.log.2.2]
  fits := by simp [h.log.2.2]
  busy p g hg := by
    rw [(h.idle p).2] at hg
    cases hg
  idle _ := by
    refine ⟨⟨hc, fun i b hi => ?_⟩, fun _ => h.log.2.2⟩
    have hd := hi.2
    rw [(h.unused i).2.2] at hd
    cases hd

/-- **A crash leaves the memory of a moment between operations.**  The machine stops in
any state reached from a start with a clean log, and `recover_from_log` runs, cut short
after each of the counts `ks` and then to its end.  Then

* the log is clean, and every block outside it holds the durable contents: those in memory
  at the last header write of a commit, or at the start;
* at a header write no process is in an operation, so an operation is there as a whole or
  not at all;
* once every operation has returned from its `end_op`, the contents in memory are durable. -/
theorem crash_recovers (s₀ s : State P) (D : UInt32 → Block) (h₀ : Start s₀)
    (hsize : 0 < s₀.log.size) (hc : Clean s₀) (h : Reaches durableStep (s₀, s₀.mem) (s, D)) :
    (∀ ks, let final := recovered s.region (cutRecoveries s.region (asDisk (s.disk ROOTDEV)) ks)
      readHead (final s.log.start) = [] ∧ ∀ b, ¬ s.inLog b → final b.toNat = D b) ∧
    (∀ p x, s.job p = .commit (.writeHead (.write x)) → ∀ q, s.job q ≠ .inOp) ∧
    (s.log.outstanding = 0 → s.log.committing = false → ∀ b, ¬ s.inLog b → D b = s.mem b) := by
  obtain ⟨hi, hd⟩ : Inv s ∧ Durable s D := by
    refine Reaches.inv (I := fun x => Inv x.1 ∧ Durable x.1 x.2) (fun x a x' hI hs => ?_) h
      ⟨h₀.inv, h₀.durable hsize hc⟩
    obtain ⟨r, hr, he⟩ := map_eq_some_iff.1 hs
    rcases r with m | s1 <;> cases he
    exact ⟨(hI.1.step hr).1, hI.2.step hI.1 hr⟩
  refine ⟨fun ks => ?_, fun p x hp => hi.not_inOp hp, fun h0 hn b hb => ?_⟩
  · obtain ⟨hhead, hfinal⟩ := (hd.redo.cutRecoveries ks).recovered
    exact ⟨hhead, fun b hb => (hfinal _ hb).trans (asDisk_toNat D b)⟩
  · obtain ⟨⟨hclean, hpin⟩, hlh⟩ := hd.idle hn
    have hb' := hd.redo.eq_of_clean hclean hb
    rw [asDisk_toNat, asDisk_toNat] at hb'
    rw [hb', hi.disk_eq (fun q hq => (hi.ops.idle_of_inOp hq).2 h0) hb fun i hib => ?_]
    have := hpin i b hib
    rw [hlh h0] at this
    cases this

/-- The hypotheses of `crash_recovers` are satisfiable: the machine stops right after the
header write of a commit. -/
theorem crash_recovers_storeRun : ∃ (s₀ s : State (Fin 2)) (D : UInt32 → Block), Start s₀ ∧
    0 < s₀.log.size ∧ Clean s₀ ∧ Reaches durableStep (s₀, s₀.mem) (s, D) ∧ s.log.lh = [100] ∧
      recovered s.region (asDisk (s.disk ROOTDEV)) 100 = D 100 := by
  let s₀ : State (Fin 2) := .binit (fun _ _ => Lib.Buf.zero) (Log.State.init Mkfs.sb)
  have h₀ : Start s₀ := start_binit _ (by decide)
  have hc : Clean s₀ := by
    change readHead (asDisk (fun _ => Lib.Buf.zero) 2) = []
    rw [asDisk, if_pos (by decide), readHead, Lib.Buf.getU32_zero]
    rfl
  have hrun : Leads durableStep (s₀, s₀.mem) ((storeRun fun _ => 1).take 26) fun x =>
      x.1.log.lh = [100] ∧ ¬ x.1.inLog 100 := by decide +kernel
  obtain ⟨⟨s, D⟩, h, hlh, hin⟩ := hrun.reaches
  exact ⟨s₀, s, D, h₀, by decide, hc, h, hlh,
    ((crash_recovers s₀ s D h₀ (by decide) hc h).1 []).2 100 hin⟩

end Xv6.Bio
