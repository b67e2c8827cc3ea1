/-
# References to cached inodes

`iget`, `idup`, `iput`, `ilock` and `iunlock` of `fs.c`, as the system calls use
them.  A caller counts the references it holds to each cache entry (`Refs`).
The inode of an entry with a counted reference stays in the cache, with its
number and type, whatever the code does in between (`Evolves`); an entry
without one may be given to another inode.

`Got` and `Put` say what `iget` and `iput` do to the state.  `iput` is the only
function that can free an inode, and it does so only with the last reference.
-/

import Mathlib.Algebra.Group.Pi.Lemmas
import Xv6.Fs.Wf

namespace Xv6.Fs

open Function Lib State

/-- Which entries of the inode cache are locked. -/
def State.locks (s : State) (k : Slot) : Bool := (s.icache k).locked

/-- One more reference to entry `k`. -/
def addRef (H : Slot → ℕ) (k : Slot) : Slot → ℕ := update H k (H k + 1)

/-- There are at least `H k` references to entry `k`. -/
def Refs (H : Slot → ℕ) (s : State) : Prop := ∀ k, (H k : ℤ) ≤ (s.icache k).ref

/-- The reference counts of the inode cache. -/
def State.refs (s : State) (k : Slot) : ℤ := (s.icache k).ref

/-- One reference to entry `k`. -/
def oneRef (k : Slot) : Slot → ℤ := Pi.single k 1

/-- A reference to the entry that a function returns, if it returns one. -/
def oneRefOf : Option Slot → Slot → ℤ
  | none => 0
  | some k => oneRef k

/-- A reference to the entry that a search returns, if it finds one. -/
def oneRefTo {α : Type} (r : Option (Slot × α)) : Slot → ℤ := oneRefOf (r.map Prod.fst)

/-- A part of the file-system code has run; `H` counts references that were held
all along. -/
structure Evolves (X : UInt32 → Prop) (H : Slot → ℕ) (s s' : State) : Prop where
  wf : Wf X s'
  sb : s'.sb = s.sb
  inum : ∀ k, 0 < H k → (s'.icache k).inum = (s.icache k).inum
  loaded : ∀ k, 0 < H k → s.Loaded k → s'.Loaded k
  type : ∀ k, 0 < H k → s.Loaded k → (s'.icache k).type = (s.icache k).type

section Refs

variable {X : UInt32 → Prop} {H H' : Slot → ℕ} {s s' s'' : State} {k l : Slot} {i : UInt32}
  {f : Inode → Inode} {E : Fail → Prop}

@[simp] theorem addRef_self : addRef H k k = H k + 1 := update_self _ _ _

theorem addRef_of_ne (h : l ≠ k) : addRef H k l = H l := update_of_ne h _ _

theorem le_addRef (H : Slot → ℕ) (k l : Slot) : H l ≤ addRef H k l := by
  by_cases h : l = k
  · rw [h, addRef_self]; omega
  · rw [addRef_of_ne h]

theorem addRef_comm (H : Slot → ℕ) (k l : Slot) :
    addRef (addRef H k) l = addRef (addRef H l) k := by
  by_cases h : k = l
  · rw [h]
  · rw [addRef, addRef_of_ne (Ne.symm h), addRef, addRef, addRef, update_comm h, update_of_ne h]

theorem Refs.mono (h : Refs H' s) (hle : ∀ k, H k ≤ H' k) : Refs H s := fun k =>
  (Int.ofNat_le.2 (hle k)).trans (h k)

theorem Refs.pos (h : Refs H s) (hk : 0 < H k) : 0 < (s.icache k).ref := by
  have := h k
  omega

theorem Refs.of_addRef (h : Refs (addRef H k) s) : Refs H s := h.mono (le_addRef H k)

theorem Refs.pos_self (h : Refs (addRef H k) s) : 0 < (s.icache k).ref :=
  h.pos (by rw [addRef_self]; omega)

theorem Refs.congr (h : Refs H s) (href : ∀ k, (s'.icache k).ref = (s.icache k).ref) :
    Refs H s' := fun k => (h k).trans_eq (href k).symm

theorem Evolves.refl (hw : Wf X s) : Evolves X H s s :=
  ⟨hw, rfl, fun _ _ => rfl, fun _ _ h => h, fun _ _ _ => rfl⟩

theorem Evolves.trans (h : Evolves X H s s') (h' : Evolves X H s' s'') : Evolves X H s s'' where
  wf := h'.wf
  sb := h'.sb.trans h.sb
  inum k hk := (h'.inum k hk).trans (h.inum k hk)
  loaded k hk hl := h'.loaded k hk (h.loaded k hk hl)
  type k hk hl := (h'.type k hk (h.loaded k hk hl)).trans (h.type k hk hl)

theorem Evolves.mono (h : Evolves X H' s s') (hle : ∀ k, H k ≤ H' k) : Evolves X H s s' where
  wf := h.wf
  sb := h.sb
  inum k hk := h.inum k (hk.trans_le (hle k))
  loaded k hk := h.loaded k (hk.trans_le (hle k))
  type k hk := h.type k (hk.trans_le (hle k))

theorem Evolves.of_addRef (h : Evolves X (addRef H k) s s') : Evolves X H s s' :=
  h.mono (le_addRef H k)

/-- One entry of the cache has changed. -/
theorem Evolves.of_entry (hw : Wf X s') (hsb : s'.sb = s.sb)
    (hother : ∀ l ≠ k, s'.icache l = s.icache l)
    (hk : 0 < H k → (s'.icache k).inum = (s.icache k).inum ∧
      (s.Loaded k → s'.Loaded k ∧ (s'.icache k).type = (s.icache k).type)) :
    Evolves X H s s' where
  wf := hw
  sb := hsb
  inum l hl := by
    by_cases hlk : l = k
    · subst hlk; exact (hk hl).1
    · rw [hother l hlk]
  loaded l hl hload := by
    by_cases hlk : l = k
    · subst hlk; exact ((hk hl).2 hload).1
    · rw [State.Loaded, hother l hlk]; exact hload
  type l hl hload := by
    by_cases hlk : l = k
    · subst hlk; exact ((hk hl).2 hload).2
    · rw [hother l hlk]

theorem Evolves.of_edits (hw : Wf X s') (he : Edits k s s') : Evolves X H s s' :=
  .of_entry hw he.sb he.others fun _ => ⟨he.inum, fun hl => ⟨he.loaded hl, he.type_eq⟩⟩

theorem Edits.refs (he : Edits k s s') (hr : Refs H s) : Refs H s' := hr.congr fun l => by
  by_cases hl : l = k
  · rw [hl, he.entry]
  · rw [he.others l hl]

theorem Edits.locks (he : Edits k s s') : s'.locks = s.locks := by
  funext l
  by_cases hl : l = k
  · rw [State.locks, hl, he.entry]; rfl
  · rw [State.locks, he.others l hl]; rfl

/-! ### Counts -/

theorem refs_setInode_add {n : ℤ} (hf : (f (s.icache k)).ref = (s.icache k).ref + n) :
    (s.setInode k f).refs = s.refs + Pi.single k n := by
  funext l
  by_cases hl : l = k
  · subst hl
    rw [refs, setInode_self, hf, Pi.add_apply, Pi.single_eq_same, refs]
  · rw [refs, setInode_of_ne hl, Pi.add_apply, Pi.single_eq_of_ne hl, add_zero, refs]

theorem refs_setInode_same (hf : (f (s.icache k)).ref = (s.icache k).ref) :
    (s.setInode k f).refs = s.refs := by
  rw [refs_setInode_add (n := 0) (by rw [hf, add_zero]), Pi.single_zero, add_zero]

theorem Edits.refs_eq (he : Edits k s s') : s'.refs = s.refs := by
  funext l
  by_cases hl : l = k
  · rw [State.refs, hl, he.entry, State.refs]
  · rw [State.refs, he.others l hl, State.refs]

/-! ### Locks -/

theorem locks_setInode : (s.setInode k f).locks = update s.locks k (f (s.icache k)).locked := by
  funext l
  by_cases hl : l = k
  · rw [hl, update_self, locks, setInode_self]
  · rw [update_of_ne hl, locks, setInode_of_ne hl, locks]

theorem locks_setInode_same (hf : (f (s.icache k)).locked = (s.icache k).locked) :
    (s.setInode k f).locks = s.locks := by
  rw [locks_setInode, hf]
  exact update_eq_self k s.locks

theorem refs_setInode (hr : Refs H s)
    (hf : (H k : ℤ) ≤ (f (s.icache k)).ref) : Refs H (s.setInode k f) := fun l => by
  by_cases hl : l = k
  · rw [hl, setInode_self]; exact hf
  · rw [setInode_of_ne hl]; exact hr l

/-- Bookkeeping of one entry. -/
theorem Wf.setBook (hw : Wf X s) (hd : (f (s.icache k)).toDinode = (s.icache k).toDinode)
    (hinum : (f (s.icache k)).inum = (s.icache k).inum)
    (hdev : (f (s.icache k)).dev = (s.icache k).dev)
    (hvalid : (f (s.icache k)).valid = (s.icache k).valid) (hnn : 0 ≤ (f (s.icache k)).ref)
    (href : 0 < (f (s.icache k)).ref ↔ 0 < (s.icache k).ref) :
    Evolves X H s (s.setInode k f) ∧ Same s (s.setInode k f) := by
  obtain ⟨h', hcur⟩ := hw.inv.setBook hd hinum hdev hvalid hnn href
  have hload : s.Loaded k → (s.setInode k f).Loaded k := fun hk => by
    rw [State.Loaded, setInode_self, href, hvalid]
    exact hk
  have hs : Same s (s.setInode k f) := ⟨rfl, rfl, hcur, fun l hl => by
    by_cases hlk : l = k
    · subst hlk
      exact ⟨hload hl, by rw [setInode_self, hinum]⟩
    · rw [State.Loaded, setInode_of_ne hlk]
      exact ⟨hl, rfl⟩⟩
  refine ⟨.of_entry (hw.same h' hs) rfl (fun l hl => setInode_of_ne hl) fun _ =>
    ⟨?_, fun hl => ⟨hload hl, ?_⟩⟩,
    hs⟩
  · rw [setInode_self, hinum]
  · rw [setInode_self, hd]

/-- **`ilock`** keeps the file system well-formed and the inodes as they are. -/
theorem Wf.lockIn (hw : Wf X s) (hlive : Live s.sb s.cur (s.icache k).inum)
    (href : 0 < (s.icache k).ref) :
    Evolves X H s (s.lockIn k) ∧ Same s (s.lockIn k) ∧ (s.lockIn k).Loaded k := by
  obtain ⟨h', hcur, hk'⟩ := hw.inv.lockIn hlive href
  have hs : Same s (s.lockIn k) := ⟨rfl, rfl, hcur, fun l hl => by
    by_cases hlk : l = k
    · subst hlk
      exact ⟨hk', by rw [lockIn, setInode_self]⟩
    · rw [State.Loaded, State.lockIn, setInode_of_ne hlk]
      exact ⟨hl, rfl⟩⟩
  refine ⟨.of_entry (hw.same h' hs) rfl (fun l hl => setInode_of_ne hl) fun _ =>
    ⟨?_, fun hl => ⟨hk', ?_⟩⟩,
    hs, hk'⟩
  · rw [State.lockIn, setInode_self]
  · rw [lockIn_icache hw.inv hl]

theorem refs_lockIn (hr : Refs H s) : Refs H (s.lockIn k) := refs_setInode hr (hr k)

theorem locks_lockIn : (s.lockIn k).locks = update s.locks k true := locks_setInode

theorem refs_unlock (hr : Refs H s) : Refs H (s.unlock k) := refs_setInode hr (hr k)

theorem locks_unlock : (s.unlock k).locks = update s.locks k false := locks_setInode

theorem Wf.unlock (hw : Wf X s) : Evolves X H s (s.unlock k) ∧ Same s (s.unlock k) :=
  hw.setBook rfl rfl rfl rfl (hw.inv.coh.nonneg k) Iff.rfl

/-! ### `iget` and `idup` -/

/-- What `iget` of inode `i` does, when it returns entry `k`. -/
inductive Got (i : UInt32) (s : State) (k : Slot) : State → Prop
  | hit (href : 0 < (s.icache k).ref) (hi : (s.icache k).inum = i) :
      Got i s k (s.setInode k fun ip => { ip with ref := ip.ref + 1 })
  | miss (hnew : ∀ l, 0 < (s.icache l).ref → (s.icache l).inum ≠ i) (hfree : (s.icache k).ref = 0) :
      Got i s k
        (s.setInode k fun ip => { ip with dev := ROOTDEV, inum := i, ref := 1, valid := false })

theorem wp_iget (h : Inv s) {Q : Slot → State → Prop}
    (hfull : (∀ l, 0 < (s.icache l).ref → (s.icache l).inum ≠ i) → (∀ l, (s.icache l).ref ≠ 0) →
      E (.panic "iget: no inodes"))
    (hgot : ∀ k s', Got i s k s' → Q k s') : wp (iget ROOTDEV i) E Q s := by
  unfold iget
  simp only [wp_bind, wp_get]
  split
  · next k hk =>
    simp only [wp_bind, wp_setInode, wp_pure]
    have := List.find?_some hk
    simp only [decide_eq_true_eq] at this
    exact hgot _ _ (.hit this.1 this.2.2)
  · next hk =>
    have hnew : ∀ l, 0 < (s.icache l).ref → (s.icache l).inum ≠ i := fun l hl he => by
      have := List.find?_eq_none.1 hk l (mem_slots l)
      simp only [decide_eq_true_eq] at this
      exact this ⟨hl, (h.coh.range l hl).1, he⟩
    split
    · next hk' =>
      rw [wp_panic]
      refine hfull hnew fun l hl => ?_
      have := List.find?_eq_none.1 hk' l (mem_slots l)
      simp only [decide_eq_true_eq] at this
      exact this hl
    · next k hk' =>
      simp only [wp_bind, wp_setInode, wp_pure]
      have := List.find?_some hk'
      simp only [decide_eq_true_eq] at this
      exact hgot _ _ (.miss hnew this)

variable (h : Got i s k s')

include h

theorem Got.others (hl : l ≠ k) : s'.icache l = s.icache l := by
  cases h <;> exact setInode_of_ne hl

theorem Got.inum : (s'.icache k).inum = i := by
  cases h with
  | hit href hi => rw [setInode_self]; exact hi
  | miss hnew hfree => rw [setInode_self]

theorem Got.locks : s'.locks = s.locks := by
  cases h <;> exact locks_setInode_same rfl

theorem Got.same (hinv : Inv s) (hi : i.toNat < s.sb.ninodes.toNat) : Inv s' ∧ Same s s' := by
  cases h with
  | hit href hinum =>
    obtain ⟨h', hcur⟩ := hinv.setBook (k := k) (f := fun ip => { ip with ref := ip.ref + 1 })
      rfl rfl rfl rfl (by dsimp only; omega) (by dsimp only; omega)
    refine ⟨h', rfl, rfl, hcur, fun l hl => ?_⟩
    by_cases hlk : l = k
    · subst hlk
      rw [State.Loaded, setInode_self]
      exact ⟨⟨by dsimp only; omega, hl.2⟩, rfl⟩
    · rw [State.Loaded, setInode_of_ne hlk]
      exact ⟨hl, rfl⟩
  | miss hnew hfree =>
    obtain ⟨h', hcur⟩ := hinv.recycle (f := fun ip => { ip with
      dev := ROOTDEV, inum := i, ref := 1, valid := false }) hfree hi hnew rfl
    refine ⟨h', rfl, rfl, hcur, fun l hl => ?_⟩
    have hlk : l ≠ k := by
      rintro rfl
      exact absurd hfree hl.1.ne'
    rw [State.Loaded, setInode_of_ne hlk]
    exact ⟨hl, rfl⟩

/-- The references after `iget`. -/
theorem Got.refs (hr : Refs H s) : Refs (addRef H k) s' := fun l => by
  by_cases hl : l = k
  · subst hl
    have hk := hr l
    rw [addRef_self]
    cases h with
    | hit => rw [setInode_self]; dsimp only; push_cast; omega
    | miss hnew hfree => rw [setInode_self]; dsimp only; push_cast; omega
  · rw [addRef_of_ne hl, h.others hl]
    exact hr l

theorem Got.refs_eq : s'.refs = s.refs + oneRef k := by
  cases h with
  | hit => exact refs_setInode_add rfl
  | miss hnew hfree => exact refs_setInode_add (by dsimp only; rw [hfree]; rfl)

/-- An entry with a reference stays with its inode. -/
theorem Got.kept (hl : 0 < (s.icache l).ref) :
    s'.icache l = { s.icache l with ref := (s'.icache l).ref } := by
  by_cases hlk : l = k
  · subst hlk
    cases h with
    | hit => rw [setInode_self]
    | miss hnew hfree => exact absurd hfree hl.ne'
  · rw [h.others hlk]

/-- **`iget`** adds a reference and keeps the inodes as they are. -/
theorem Got.evolves (hw : Wf X s) (hi : i.toNat < s.sb.ninodes.toNat)
    (hr : Refs H s) : Evolves X H s s' ∧ Same s s' ∧ Refs (addRef H k) s' := by
  obtain ⟨h', hs⟩ := h.same hw.inv hi
  refine ⟨.of_entry (hw.same h' hs) hs.sb (fun l hl => h.others hl) fun hpos => ?_, hs, h.refs hr⟩
  have hkept := h.kept (hr.pos hpos)
  exact ⟨by rw [hkept], fun hl => ⟨(hs.loaded k hl).1, by rw [hkept]⟩⟩

omit h

theorem wp_idup {Q : Slot → State → Prop} (hk : 0 < (s.icache k).ref)
    (hgot : ∀ s', Got (s.icache k).inum s k s' → Q k s') : wp (idup k) E Q s := by
  unfold idup
  simp only [wp_bind, wp_setInode, wp_pure]
  exact hgot _ (.hit hk rfl)

/-! ### `iput` -/

/-- What `iput` of entry `k` does. -/
inductive Put (s : State) (k : Slot) : State → Prop
  | last {s' : State} (hk : s.Loaded k) (href : (s.icache k).ref = 1) (hn : (s.icache k).nlink = 0)
      (hs : Reclaimed s s' k) : Put s k s'
  | drop (href : (s.icache k).ref = 1) (hn : s.Loaded k → (s.icache k).nlink ≠ 0) :
      Put s k (s.setInode k fun ip => { ip with ref := ip.ref - 1 })
  | more (href : 1 < (s.icache k).ref) :
      Put s k (s.setInode k fun ip => { ip with ref := ip.ref - 1 })

/-- `iput` that does not free the inode. -/
theorem wp_iput_drop {Q : PUnit → State → Prop}
    (hlast : ¬ ((s.icache k).valid = true ∧ (s.icache k).nlink = 0 ∧ (s.icache k).ref = 1))
    (hsleep : s.locks k = true → E .sleep)
    (hQ : s.locks k = false → Q ⟨⟩ (s.setInode k fun ip => { ip with ref := ip.ref - 1 })) :
    wp (iput k) E Q s := by
  unfold iput acquiresleep releasesleep getInode
  simp only [wp_bind, wp_get, wp_pure, wp_ite, wp_sleep, wp_setInode, setInode_self]
  refine ⟨hsleep, fun hl => ⟨fun hc => absurd hc hlast, fun _ => ?_⟩⟩
  have hl : (s.icache k).locked = false := by simpa using hl
  refine (congrArg (Q ⟨⟩) ?_).mpr (hQ hl)
  rw [setInode_setInode, setInode_setInode]
  simp only [State.setInode, ← hl]

theorem wp_iput (h : Inv s) (hpos : 0 < (s.icache k).ref)
    {Q : PUnit → State → Prop} (hsleep : s.locks k = true → E .sleep)
    (hput : s.locks k = false → ∀ s', Put s k s' → Q ⟨⟩ s') : wp (iput k) E Q s := by
  by_cases hlast : (s.icache k).valid = true ∧ (s.icache k).nlink = 0 ∧ (s.icache k).ref = 1
  · by_cases hl : (s.icache k).locked = true
    · unfold iput acquiresleep getInode
      simp only [wp_bind, wp_get, wp_pure, wp_ite, wp_sleep]
      exact ⟨fun _ => hsleep hl, fun hc => absurd hl hc⟩
    have hl : (s.icache k).locked = false := by simpa using hl
    have hk : s.Loaded k := ⟨hpos, hlast.1⟩
    exact wp_mono (wp_iput_last h hk hlast.2.2 hlast.2.1 hl) fun _ s' hs =>
      hput hl s' (.last hk hlast.2.2 hlast.2.1 hs)
  · refine wp_iput_drop hlast hsleep fun hl => hput hl _ ?_
    by_cases hone : (s.icache k).ref = 1
    · exact .drop hone fun hk hn => hlast ⟨hk.2, hn, hone⟩
    · exact .more (by omega)

theorem Put.locks (h : Put s k s') (hl : s.locks k = false) : s'.locks = s.locks := by
  cases h with
  | last hk href hn hs =>
    funext l
    by_cases hlk : l = k
    · rw [State.locks, hs.icache, hlk, update_self, hl]
    · rw [State.locks, hs.icache, update_of_ne hlk, State.locks]
  | drop => exact locks_setInode_same rfl
  | more => exact locks_setInode_same rfl

theorem Put.refs_eq (h : Put s k s') : s'.refs = s.refs - oneRef k := by
  have hdrop : (s.setInode k fun ip => { ip with ref := ip.ref - 1 }).refs = s.refs - oneRef k := by
    rw [refs_setInode_add (n := -1) (by dsimp only; rfl), Pi.single_neg, ← sub_eq_add_neg, oneRef]
  cases h with
  | last hk href hn hs =>
    funext l
    by_cases hl : l = k
    · subst hl
      rw [refs, hs.icache, update_self, Pi.sub_apply, oneRef, Pi.single_eq_same, refs, href]
      rfl
    · rw [refs, hs.icache, update_of_ne hl, Pi.sub_apply, oneRef,
        Pi.single_eq_of_ne hl, sub_zero, refs]
  | drop => exact hdrop
  | more => exact hdrop

/-- **`iput`** keeps the file system well-formed. -/
theorem Put.evolves (h : Put s k s') (hw : Wf X s) (hr : Refs (addRef H k) s) :
    Evolves X H s s' ∧ Refs H s' := by
  have hk := hr k
  rw [addRef_self] at hk
  push_cast at hk
  have hr' := hr.of_addRef
  cases h with
  | last hload href hn hs =>
    have h0 : H k = 0 := by omega
    have hother : ∀ l ≠ k, s'.icache l = s.icache l := fun l hl => by
      rw [hs.icache, update_of_ne hl]
    refine ⟨.of_entry (hw.reclaimed hload hs).1 hs.sb hother fun hpos => absurd hpos (by omega),
      fun l => ?_⟩
    by_cases hl : l = k
    · rw [hl, h0, hs.icache, update_self]; rfl
    · rw [hother l hl]; exact hr' l
  | drop href hn =>
    have h0 : H k = 0 := by omega
    refine ⟨.of_entry (hw.drop (by dsimp only; rw [href]; rfl) hn).1 rfl
      (fun l hl => setInode_of_ne hl) fun hpos => absurd hpos (by omega), refs_setInode hr' ?_⟩
    dsimp only
    omega
  | more href =>
    refine ⟨(hw.setBook rfl rfl rfl rfl (by dsimp only; omega) (by dsimp only; omega)).1,
      refs_setInode hr' ?_⟩
    dsimp only
    omega

end Refs
end Xv6.Fs
