/-
# Freeing an inode

`itrunc` and the freeing branch of `iput` in `fs.c`.  `itrunc` frees the blocks of
an inode in a fixed order, the direct ones, the entries of the indirect block
and the indirect block itself (`freeOrder`); under the invariant every one of
these calls of `bfree` finds its bit set, since no block is held twice.

`wp_itrunc` is what `itrunc` does: the blocks the inode holds are released
(`Released`) and the inode is stored without them.
-/

import Xv6.Fs.Invariant

namespace Xv6.Fs

open Function Lib List

/-! ### Releasing blocks -/

/-- `s'` is `s` after the blocks of `bs` were passed to `bfree` in this order. -/
structure Released (s s' : State) (bs : List UInt32) : Prop where
  sb : s'.sb = s.sb
  logged : s'.logged = s.logged ++ bs.map (BBLOCK · s.sb)
  fmt : Formatted s.sb s'.disk
  disk : ∀ c, (∀ g, c ≠ s.sb.bitmapBlock g) → s'.disk c = s.disk c
  used : ∀ c, s.sb.start ≤ c → c < s.sb.limit →
    (usedBit s.sb s'.disk c = true ↔ usedBit s.sb s.disk c = true ∧ ∀ b ∈ bs, b.toNat ≠ c)

namespace Released

variable {s s' : State} {bs : List UInt32} {b : UInt32}

theorem refl (h : Formatted s.sb s.disk) : Released s s [] :=
  ⟨rfl, by simp, h, fun _ _ => rfl, fun _ _ _ => by simp⟩

/-- The inode cache plays no part. -/
theorem setInode (h : Released s s' bs) (k : Slot) (f : Inode → Inode) :
    Released s (s'.setInode k f) bs := ⟨h.sb, h.logged, h.fmt, h.disk, h.used⟩

/-- One more block is released. -/
theorem freed (h : Released s s' bs) (hb : IsData s.sb b.toNat) :
    Released s (s'.freed b) (bs ++ [b]) where
  sb := h.sb
  logged := by simp [State.freed, h.logged, h.sb]
  fmt := by rw [freed_disk, h.sb]; exact h.fmt.setUsed hb false
  disk c hc := by rw [freed_disk, h.sb, setUsed_of_ne hc, h.disk c hc]
  used c hc1 hc2 := by
    rw [freed_disk, h.sb, usedBit_setUsed h.fmt.geom.bits hb.1 hb.2.1 hc1 hc2]
    split_ifs with hcb
    · simp [hcb]
    · rw [h.used c hc1 hc2]
      simp only [mem_append, mem_singleton, and_congr_right_iff]
      exact fun _ => ⟨fun hbs x hx => hx.elim (hbs x) fun hxb => hxb ▸ Ne.symm hcb,
        fun hbs x hx => hbs x (.inl hx)⟩

/-- `bfree` releases a used block that was not released yet. -/
theorem wp_bfree (h : Released s s' bs) (hb : IsData s.sb b.toNat) (hu : s.Used b.toNat)
    (hnew : b ∉ bs) {E : Fail → Prop} {Q : PUnit → State → Prop} (hQ : Q ⟨⟩ (s'.freed b)) :
    wp (bfree b) E Q s' := by
  have hused := (h.used b.toNat hb.1 hb.2.1).2
    ⟨hu, fun c hc he => hnew (UInt32.toNat_inj.1 he ▸ hc)⟩
  have hsb := h.sb
  exact Fs.wp_bfree (hsb ▸ h.fmt) (hsb ▸ hb.1) (hsb ▸ hb.2.1) (hsb ▸ hused) hQ

end Released

/-! ### The blocks of an inode -/

/-- The places of an inode in the order in which `itrunc` frees them. -/
def freeOrder : List ℕ :=
  range NDIRECT ++ (range NINDIRECT).map (13 + ·) ++ [NDIRECT]

/-- The blocks in the given places of inode `d`. -/
def blocksAt (D : Disk) (d : Dinode) (ps : List ℕ) : List UInt32 :=
  (ps.map (holds D d)).filter (· ≠ 0)

/-- The blocks `itrunc` frees, in its order. -/
def freeList (D : Disk) (d : Dinode) : List UInt32 := blocksAt D d freeOrder

section BlocksAt

variable {D : Disk} {d : Dinode} {ps : List ℕ} {p : ℕ}

theorem blocksAt_snoc_zero (h : holds D d p = 0) : blocksAt D d (ps ++ [p]) = blocksAt D d ps := by
  simp [blocksAt, h]

theorem blocksAt_snoc (h : holds D d p ≠ 0) :
    blocksAt D d (ps ++ [p]) = blocksAt D d ps ++ [holds D d p] := by
  simp [blocksAt, h]

theorem blocksAt_append_zero {qs : List ℕ} (h : ∀ q ∈ qs, holds D d q = 0) :
    blocksAt D d (ps ++ qs) = blocksAt D d ps := by
  have hqs : (qs.map (holds D d)).filter (· ≠ 0) = [] := by
    rw [filter_eq_nil_iff]
    simpa using h
  rw [blocksAt, map_append, filter_append, hqs, append_nil, blocksAt]

theorem mem_blocksAt {b : UInt32} : b ∈ blocksAt D d ps ↔ (∃ p ∈ ps, holds D d p = b) ∧ b ≠ 0 := by
  simp [blocksAt]

end BlocksAt

theorem mem_freeOrder {p : ℕ} : p ∈ freeOrder ↔ p < NHELD := by
  simp only [freeOrder, mem_append, mem_range, mem_map, mem_singleton, NDIRECT, NINDIRECT, NHELD]
  constructor
  · rintro ((h | ⟨j, hj, rfl⟩) | rfl) <;> omega
  · intro h
    rcases Nat.lt_trichotomy p 12 with hp | rfl | hp
    · exact .inl (.inl hp)
    · exact .inr rfl
    · exact .inl (.inr ⟨p - 13, by omega, by omega⟩)

section Itrunc

variable {s s' : State} {k : Slot} {E : Fail → Prop} {ps : List ℕ}

/-- Freeing the block in the next place of the inode, if there is one. -/
theorem wp_free_place (h : Inv s) (hk : s.Loaded k) {p : ℕ} {b : UInt32}
    (hrel : Released s s' (blocksAt s.disk (s.icache k).toDinode ps))
    (hb : holds s.disk (s.icache k).toDinode p = b) (h0 : b ≠ 0) (hp : p < NHELD)
    (hps : ∀ q ∈ ps, q < NHELD) (hnew : p ∉ ps) {Q : PUnit → State → Prop}
    (hQ : Released s (s'.freed b) (blocksAt s.disk (s.icache k).toDinode (ps ++ [p])) →
      Q ⟨⟩ (s'.freed b)) : wp (bfree b) E Q s' := by
  have hlive := h.live hk
  have hcur := h.coh.cur_loaded hk
  subst hb
  have hdata := h.isData hlive hp (by rwa [hcur])
  rw [hcur] at hdata
  refine hrel.wp_bfree hdata.1 hdata.2 (fun hmem => ?_) (hQ ?_)
  · obtain ⟨⟨q, hq, he⟩, -⟩ := mem_blocksAt.1 hmem
    rw [← hcur] at he h0
    exact hnew ((h.acct.inj _ _ hlive hlive p hp q (hps q hq) h0 he.symm).2 ▸ hq)
  · rw [blocksAt_snoc h0]
    exact hrel.freed hdata.1

/-- `s'` is `s` with the blocks in places `ps` of the inode in entry `k` released
and its addresses in memory changed to `A`. -/
structure Clearing (s s' : State) (k : Slot) (ps : List ℕ) (A : Fin (NDIRECT + 1) → UInt32) :
    Prop where
  released : Released s s' (blocksAt s.disk (s.icache k).toDinode ps)
  icache : s'.icache = update s.icache k { s.icache k with addrs := A }

variable {A : Fin (NDIRECT + 1) → UInt32}

theorem Clearing.entry (h : Clearing s s' k ps A) :
    s'.icache k = { s.icache k with addrs := A } := by
  rw [h.icache, update_self]

/-- `if(ip->addrs[i]){ bfree(ip->dev, ip->addrs[i]); ip->addrs[i] = 0; }` -/
theorem wp_freeAddr (h : Inv s) (hk : s.Loaded k)
    {i : Fin (NDIRECT + 1)} (hc : Clearing s s' k ps A) (hA : A i = (s.icache k).addrs i)
    (hps : ∀ q ∈ ps, q < NHELD) (hnew : i.val ∉ ps) :
    wp (freeAddr k i) E (fun _ s'' => Clearing s s'' k (ps ++ [i.val]) (update A i 0))
      s' := by
  have hi : i.val < NHELD := i.isLt.trans (by decide)
  unfold freeAddr getInode
  simp only [wp_bind, wp_get, wp_pure, hc.entry, hA]
  rw [wp_ite]
  refine ⟨fun h0 => ?_, fun h0 => ?_⟩
  · rw [wp_bind]
    refine wp_free_place h hk hc.released holds_addr h0 hi hps hnew fun hrel => ?_
    rw [setInode, wp_modify]
    refine ⟨hrel.setInode _ _, ?_⟩
    rw [State.setInode, freed_icache, hc.entry, hc.icache, update_idem]
    rfl
  · rw [not_not] at h0
    rw [wp_pure]
    refine ⟨by rw [blocksAt_snoc_zero (holds_addr.trans h0)]; exact hc.released, ?_⟩
    rw [hc.icache, ← h0, ← hA, update_eq_self]

/-- The loop over the direct blocks. -/
theorem wp_itrunc_direct (h : Inv s) (hk : s.Loaded k) :
    wp (forM (finRange NDIRECT) fun i => freeAddr k i.castSucc) E
      (fun _ s' => ∃ A, Clearing s s' k (range NDIRECT) A ∧
        (∀ i : Fin NDIRECT, A i.castSucc = 0) ∧
        A (Fin.last NDIRECT) = (s.icache k).addrs (Fin.last NDIRECT)) s := by
  refine wp_forM (fun rem s' => ∃ done A, finRange NDIRECT = done ++ rem ∧
    Clearing s s' k (done.map Fin.val) A ∧ (∀ i ∈ done, A i.castSucc = 0) ∧
    (∀ i ∈ rem, A i.castSucc = (s.icache k).addrs i.castSucc) ∧
    A (Fin.last NDIRECT) = (s.icache k).addrs (Fin.last NDIRECT)) ?_ ?_ ?_
  · rintro i rem s' ⟨done, A, hsplit, hc, hdone, hrem, hlast⟩
    have hnd := nodup_finRange NDIRECT
    rw [hsplit, nodup_append, nodup_cons] at hnd
    have hi : i ∉ done := fun hid => hnd.2.2 i hid i mem_cons_self rfl
    refine wp_mono (wp_freeAddr h hk hc (hrem i mem_cons_self) ?_ ?_) fun _ s'' hc' => ?_
    · simp only [mem_map, forall_exists_index, and_imp]
      rintro q j - rfl
      exact j.isLt.trans (by decide)
    · simpa [Fin.val_inj] using hi
    · refine ⟨done ++ [i], _, by simpa using hsplit, by simpa using hc', fun j hj => ?_,
        fun j hj => ?_, ?_⟩
      · rcases mem_append.1 hj with hj | hj
        · rw [update_apply]
          split_ifs
          · rfl
          · exact hdone j hj
        · rw [mem_singleton.1 hj, update_self]
      · have hji : j ≠ i := by rintro rfl; exact hnd.2.1.1 hj
        rw [update_of_ne fun he => hji (Fin.castSucc_injective _ he)]
        exact hrem j (mem_cons_of_mem _ hj)
      · rwa [update_of_ne (Fin.castSucc_lt_last i).ne']
  · rintro s' ⟨done, A, hsplit, hc, hdone, -, hlast⟩
    rw [append_nil] at hsplit
    refine ⟨A, ?_, fun i => hdone i (hsplit ▸ mem_finRange i), hlast⟩
    rwa [← hsplit, map_coe_finRange_eq_range] at hc
  · exact ⟨[], (s.icache k).addrs, rfl, ⟨by simpa [blocksAt] using Released.refl h.fmt,
      (update_eq_self _ _).symm⟩, by simp, fun _ _ => rfl, rfl⟩

/-- The loop over the entries of the indirect block. -/
theorem wp_itrunc_entries (h : Inv s) (hk : s.Loaded k)
    {bp : Block} (h0 : (s.icache k).addrs (Fin.last NDIRECT) ≠ 0)
    (hbp : bp = s.disk ((s.icache k).addrs (Fin.last NDIRECT)).toNat)
    (hc : Clearing s s' k (range NDIRECT) A) :
    wp (forM (range NINDIRECT) fun j => do
        if bp.getU32 (4 * j) ≠ 0 then bfree (bp.getU32 (4 * j))) E
      (fun _ s'' => Clearing s s'' k
        (range NDIRECT ++ (range NINDIRECT).map (13 + ·)) A) s' := by
  have hent : ∀ j, holds s.disk (s.icache k).toDinode (13 + j) = bp.getU32 (4 * j) := fun j => by
    rw [holds, dif_neg (by omega), if_neg h0, hbp, Nat.add_sub_cancel_left]
  refine wp_forM (fun rem s' => ∃ done, range NINDIRECT = done ++ rem ∧
    Clearing s s' k (range NDIRECT ++ done.map (13 + ·)) A) ?_ ?_ ⟨[], rfl, by simpa using hc⟩
  · rintro j rem s' ⟨done, hsplit, hc⟩
    have hnd := nodup_range (n := NINDIRECT)
    rw [hsplit, nodup_append] at hnd
    have hj : j ∉ done := fun hjd => hnd.2.2 j hjd j mem_cons_self rfl
    have hlt : ∀ i ∈ done ++ j :: rem, i < NINDIRECT := fun i hi => by
      rw [← hsplit] at hi; exact mem_range.1 hi
    have hsnoc : range NDIRECT ++ (done ++ [j]).map (13 + ·) =
        range NDIRECT ++ done.map (13 + ·) ++ [13 + j] := by simp
    rw [wp_ite]
    refine ⟨fun hne => ?_, fun hne => ?_⟩
    · refine wp_free_place h hk hc.released (hent j) hne ?_ ?_ ?_ fun hrel => ?_
      · have := hlt j (by simp)
        simp only [NINDIRECT, NHELD] at *
        omega
      · simp only [mem_append, mem_range, mem_map, NDIRECT, NHELD]
        rintro q (hq | ⟨i, hi, rfl⟩)
        · omega
        · have := hlt i (mem_append_left _ hi)
          simp only [NINDIRECT] at this
          omega
      · simp only [mem_append, mem_range, mem_map, NDIRECT]
        rintro (hq | ⟨i, hi, he⟩)
        · omega
        · exact hj ((Nat.add_left_cancel he) ▸ hi)
      · exact ⟨done ++ [j], by simpa using hsplit, hsnoc ▸ hrel, by rw [freed_icache, hc.icache]⟩
    · rw [not_not] at hne
      rw [wp_pure]
      refine ⟨done ++ [j], by simpa using hsplit, ?_, hc.icache⟩
      rw [hsnoc, blocksAt_snoc_zero ((hent j).trans hne)]
      exact hc.released
  · rintro s' ⟨done, hsplit, hc⟩
    rw [append_nil] at hsplit
    rwa [hsplit]

/-- The inode `itrunc` leaves: no blocks and no bytes. -/
def Dinode.truncated (d : Dinode) : Dinode := { d with addrs := fun _ => 0, size := 0 }

/-- `s'` is `s` with the blocks of the inode in entry `k` released and the inode
stored without them. -/
def Truncated (s s' : State) (k : Slot) : Prop :=
  ∃ s₁, Released s s₁ (freeList s.disk (s.icache k).toDinode) ∧
    s₁.icache = update s.icache k
      { s.icache k with toDinode := (s.icache k).toDinode.truncated } ∧
    s' = s₁.putInode (s.icache k).inum (s.icache k).toDinode.truncated

/-- The end of `itrunc`, with all addresses cleared. -/
theorem wp_itrunc_end (hc : Clearing s s' k freeOrder fun _ => 0) :
    wp (do setInode k fun ip => { ip with size := 0 }; iupdate k) E
      (fun _ s'' => Truncated s s'' k) s' := by
  have hrel := hc.released.setInode k fun ip => { ip with size := 0 }
  simp only [iupdate, getInode, setInode, wp_bind, wp_modify, wp_get, wp_pure, wp_storeDinode,
    setInode_self, hc.entry]
  refine ⟨_, hrel, ?_, rfl⟩
  rw [State.setInode, hc.entry, hc.icache, update_idem]
  rfl

/-- **`itrunc`** releases the blocks of the inode and stores it without them. -/
theorem wp_itrunc (h : Inv s) (hk : s.Loaded k) :
    wp (itrunc k) E (fun _ s' => Truncated s s' k) s := by
  have hall : ∀ A : Fin (NDIRECT + 1) → UInt32, (∀ i : Fin NDIRECT, A i.castSucc = 0) →
      A (Fin.last NDIRECT) = 0 → A = fun _ => 0 := fun A hA hlast =>
    funext fun i => Fin.lastCases hlast hA i
  unfold itrunc
  simp only [wp_bind]
  refine wp_mono (wp_itrunc_direct h hk) fun _ s1 hrun => ?_
  obtain ⟨A, hc, hdirect, hlast⟩ := hrun
  simp only [getInode, wp_bind, wp_get, wp_pure, hc.entry, hlast]
  rw [wp_ite]
  refine ⟨fun h0 => ?_, fun h0 => ?_⟩
  · have hind : s1.disk ((s.icache k).addrs (Fin.last NDIRECT)).toNat =
        s.disk ((s.icache k).addrs (Fin.last NDIRECT)).toNat := by
      refine hc.released.disk _ fun g => ?_
      have := (h.isData (h.live hk) (show NDIRECT < NHELD by decide)
        (by rwa [h.coh.cur_loaded hk, holds_indirect])).1
      rw [h.coh.cur_loaded hk, holds_indirect] at this
      exact this.ne_bitmapBlock h.geom.bits g
    simp only [bread, wp_bind, wp_get, wp_pure]
    refine wp_mono (wp_itrunc_entries h hk h0 hind hc) fun _ s2 hc2 => ?_
    refine wp_mono (wp_freeAddr h hk hc2 hlast ?_ ?_) fun _ s3 hc3 => ?_
    · exact fun q hq => mem_freeOrder.1 (mem_append_left _ hq)
    · simp only [mem_append, mem_range, mem_map, Fin.val_last, NDIRECT]
      rintro (hq | ⟨i, -, he⟩) <;> omega
    · rw [hall (update A _ 0) (fun i => ?_) (update_self _ _ _)] at hc3
      · exact wp_bind.1 (wp_itrunc_end hc3)
      · rw [update_of_ne (Fin.castSucc_lt_last i).ne, hdirect i]
  · rw [not_not] at h0
    rw [hall A hdirect (hlast.trans h0)] at hc
    refine wp_itrunc_end ⟨?_, hc.icache⟩
    rw [freeOrder, append_assoc, blocksAt_append_zero fun q hq => ?_]
    · exact hc.released
    · rw [mem_append, mem_singleton, mem_map] at hq
      rcases hq with ⟨j, -, rfl⟩ | rfl
      · rw [holds, dif_neg (by omega), if_pos h0]
      · exact holds_indirect.trans h0

/-- The inode `iput` leaves on the disk: free, no blocks, no bytes. -/
def Dinode.erased (d : Dinode) : Dinode := { d.truncated with type := 0 }

/-- `s'` is `s` with the inode in entry `k` freed and the entry given up. -/
structure Reclaimed (s s' : State) (k : Slot) : Prop where
  sb : s'.sb = s.sb
  logged : s'.logged = s.logged ++ (freeList s.disk (s.icache k).toDinode).map (BBLOCK · s.sb) ++
    [IBLOCK (s.icache k).inum s.sb, IBLOCK (s.icache k).inum s.sb]
  icache : s'.icache = update s.icache k { s.icache k with
    toDinode := (s.icache k).toDinode.erased, ref := 0, valid := false, locked := false }
  fmt : Formatted s.sb s'.disk
  data : ∀ b, IsData s.sb b → s'.disk b = s.disk b
  used : ∀ c, s.sb.start ≤ c → c < s.sb.limit → (usedBit s.sb s'.disk c = true ↔
    usedBit s.sb s.disk c = true ∧ ∀ b ∈ freeList s.disk (s.icache k).toDinode, b.toNat ≠ c)
  dinode : ∀ j, j.toNat < s.sb.ninodes.toNat →
    s'.dinode j = if j = (s.icache k).inum then (s.icache k).toDinode.erased else s.dinode j

/-- **`iput` of the last reference to an inode without links** frees the inode. -/
theorem wp_iput_last (h : Inv s) (hk : s.Loaded k) (hr : (s.icache k).ref = 1)
    (hn : (s.icache k).nlink = 0) (hl : (s.icache k).locked = false) :
    wp (iput k) E (fun _ s' => Reclaimed s s' k) s := by
  have hin := (h.coh.range k hk.1).2
  obtain ⟨hinv, -⟩ := h.setBook (k := k) (f := fun ip => { ip with locked := true }) rfl rfl rfl rfl
    (h.coh.nonneg k) Iff.rfl
  have hk1 : (s.setInode k fun ip => { ip with locked := true }).Loaded k := by
    rw [State.Loaded, setInode_self]; exact hk
  unfold iput acquiresleep getInode
  simp only [wp_bind, wp_get, wp_pure, hl, Bool.false_eq_true, if_false, setInode, wp_modify,
    setInode_self, hr, hn, hk.2, true_and, if_true]
  refine wp_mono (wp_itrunc hinv hk1) fun _ s2 hrun => ?_
  obtain ⟨s1, hrel, hic, rfl⟩ := hrun
  have hent : s1.icache k = { s.icache k with
      toDinode := (s.icache k).toDinode.truncated, locked := true } := by
    rw [hic, update_self, setInode_self]
  replace hrel : Released s s1 (freeList s.disk (s.icache k).toDinode) := by
    rw [setInode_self] at hrel
    exact ⟨hrel.sb, hrel.logged, hrel.fmt, hrel.disk, hrel.used⟩
  simp only [iupdate, releasesleep, getInode, setInode, wp_bind, wp_modify, wp_get, wp_pure,
    wp_storeDinode, setInode_self, putInode_icache, hent, setInode_putInode, setInode_setInode,
    show ({ (s.icache k).toDinode.truncated with type := 0 } : Dinode) =
      (s.icache k).toDinode.erased
      from rfl, putInode_putInode]
  have hsb := hrel.sb
  have hfmt : Formatted s1.sb s1.disk := hsb ▸ hrel.fmt
  have hin1 : (s.icache k).inum.toNat < s1.sb.ninodes.toNat := hsb ▸ hin
  obtain ⟨hfmt2, hused2, hdata2⟩ := putInode_frame hfmt hin1 (s.icache k).toDinode.erased
  have hd2 := fun j hj => dinode_putInode (j := j) hfmt.geom hin1 hj (s.icache k).toDinode.erased
  have hsb2 := (putInode_sb s1 (s.icache k).inum (s.icache k).toDinode.erased).trans hsb
  generalize s1.putInode (s.icache k).inum (s.icache k).toDinode.erased = s2 at *
  refine ⟨hsb2, ?_, ?_, hsb ▸ hfmt2, fun b hb => ?_, fun c hc1 hc2 => ?_, fun j hj => ?_⟩
  · rw [hsb, hrel.logged]
    rfl
  · simp only [State.setInode, hent, hic, update_idem, hr]
    rfl
  · exact (hdata2 b (hsb ▸ hb)).trans (hrel.disk b (hb.ne_bitmapBlock h.geom.bits))
  · have hu := congrFun hused2 c
    simp only [State.Used, hsb2, hsb] at hu
    rw [← hrel.used c hc1 hc2]
    exact Iff.of_eq hu
  · refine (hd2 j (hsb ▸ hj)).trans ?_
    split_ifs with hjk
    · rfl
    · exact dinode_congr hsb (hrel.disk _ (h.geom.IBLOCK_ne_bitmapBlock (h.inum_lt hj)))

/-- **Freeing an inode keeps the invariant.** -/
theorem Inv.reclaimed (h : Inv s) (hk : s.Loaded k) (hs : Reclaimed s s' k) :
    Inv s' ∧ s'.cur =
      update s.cur (s.icache k).inum (s.icache k).toDinode.erased := by
  have hin := (h.coh.range k hk.1).2
  have hlive := h.live hk
  have hcurk := h.coh.cur_loaded hk
  have hother : ∀ l, l ≠ k → s'.icache l = s.icache l := fun l hl => by
    rw [hs.icache, update_of_ne hl]
  have hself : (s'.icache k).ref = 0 := by rw [hs.icache, update_self]
  have hne : ∀ l, 0 < (s'.icache l).ref → l ≠ k := by
    rintro l hl rfl
    exact absurd hself hl.ne'
  have hnum : ∀ l, 0 < (s'.icache l).ref → (s.icache l).inum ≠ (s.icache k).inum :=
    fun l hl he => hne l hl (h.coh.uniq l k (hother l (hne l hl) ▸ hl) hk.1 he)
  have hcoh : Coherent s' := by
    refine ⟨fun l m hl hm he => ?_, fun l => ?_, fun l hl => ?_, fun l hl => ?_⟩
    · have hlk := hother l (hne l hl)
      have hmk := hother m (hne m hm)
      rw [hlk] at hl he
      rw [hmk] at hm he
      exact h.coh.uniq l m hl hm he
    · by_cases hl : l = k
      · rw [hl, hself]
      · rw [hother l hl]; exact h.coh.nonneg l
    · have hlk := hother l (hne l hl)
      rw [hlk] at hl ⊢
      rw [hs.sb]
      exact h.coh.range l hl
    · have hnl := hnum l hl.1
      have hlk := hother l (hne l hl.1)
      rw [State.Loaded, hlk] at hl
      rw [hlk, hs.dinode _ (h.coh.range l hl.1).2, if_neg hnl]
      exact h.coh.sync l hl
  have hcur : s'.cur = update s.cur (s.icache k).inum (s.icache k).toDinode.erased := by
    funext i
    by_cases hi : i = (s.icache k).inum
    · subst hi
      rw [update_self, cur_disk (hs.sb ▸ hin), hs.dinode _ hin, if_pos rfl]
      intro l hl he
      rw [hother l (hne l hl.1)] at he
      exact hnum l hl.1 he
    · rw [update_of_ne hi]
      refine cur_congr hs.sb (fun l => ?_) (fun l hl hli => ?_) fun hin' _ => ?_
      · by_cases hlk : l = k
        · subst hlk
          rw [State.Loaded, hself]
          exact ⟨fun hl => absurd hl.1.1 (lt_irrefl 0), fun hl => absurd hl.2.symm hi⟩
        · rw [State.Loaded, State.Loaded, hother l hlk]
      · rw [hother l (by rintro rfl; exact hi hli.symm)]
      · rw [hs.dinode i hin', if_neg hi]
  have hsame : ∀ i, Live s.sb s.cur i → SameBlocks s.disk s'.disk (s.cur i) :=
    h.sameBlocks fun b hb _ => hs.data b hb
  refine ⟨⟨hs.sb ▸ hs.fmt, hcoh, ?_⟩, hcur⟩
  rw [hcur, hs.sb]
  refine h.acct.update (fun j _ hj => (hsame j hj).indirect) (fun j hj hlj l hl h0 => ?_)
    fun _ hty => absurd rfl hty
  have hd := h.isData hlj hl h0
  rw [State.Used, hs.sb, hs.used _ hd.1.1 hd.1.2.1]
  refine ⟨hd.2, fun b hb he => ?_⟩
  obtain ⟨⟨p, hp, hpb⟩, -⟩ := mem_blocksAt.1 hb
  rw [← hcurk] at hpb
  exact hj (h.acct.inj j _ hlj hlive l hl p (mem_freeOrder.1 hp) h0
    (hpb.symm ▸ (UInt32.toNat_inj.1 he).symm)).1

end Itrunc

/-! ### What is logged -/

/-- The distinct block numbers passed to `log_write` between `s` and `s'`. -/
def passed (s s' : State) : Finset UInt32 := (s'.logged.drop s.logged.length).toFinset

/-- The groups in which the blocks of inode `d` lie, the indirect block among them. -/
def groupsOf (s : State) (d : Dinode) : Finset ℕ :=
  ((freeList s.disk d).map fun b => (b.toNat - s.sb.start) / s.sb.bpg.toNat).toFinset

section Logged

variable {s s' : State} {k : Slot}

theorem mem_passed_reclaimed (hs : Reclaimed s s' k) {b : UInt32} : b ∈ passed s s' ↔
    (∃ c ∈ freeList s.disk (s.icache k).toDinode, BBLOCK c s.sb = b) ∨
      b = IBLOCK (s.icache k).inum s.sb := by
  rw [passed, hs.logged, append_assoc, drop_left, mem_toFinset]
  simp

/-- **What freeing an inode logs**: one bitmap block for each group it has blocks
in, and the block of the inode. -/
theorem card_passed_reclaimed (h : Inv s) (hk : s.Loaded k) (hs : Reclaimed s s' k) :
    (passed s s').card = (groupsOf s (s.icache k).toDinode).card + 1 := by
  have hin := h.inum_lt (h.coh.range k hk.1).2
  have hdata : ∀ c ∈ freeList s.disk (s.icache k).toDinode, IsData s.sb c.toNat := by
    intro c hc
    obtain ⟨⟨p, hp, he⟩, h0⟩ := mem_blocksAt.1 hc
    rw [← h.coh.cur_loaded hk] at he
    exact he ▸ (h.isData (h.live hk) (mem_freeOrder.1 hp) (he.symm ▸ h0)).1
  have hbb : ∀ c ∈ freeList s.disk (s.icache k).toDinode, (BBLOCK c s.sb).toNat =
      s.sb.bitmapBlock ((c.toNat - s.sb.start) / s.sb.bpg.toNat) := fun c hc =>
    h.geom.bits.BBLOCK_toNat (hdata c hc).1 (hdata c hc).2.1
  have himage : (passed s s').image UInt32.toNat = insert (IBLOCK (s.icache k).inum s.sb).toNat
      ((groupsOf s (s.icache k).toDinode).image s.sb.bitmapBlock) := by
    ext b
    simp only [Finset.mem_image, mem_passed_reclaimed hs, Finset.mem_insert, groupsOf,
      mem_toFinset, mem_map, exists_exists_and_eq_and]
    constructor
    · rintro ⟨_, ⟨c, hc, rfl⟩ | rfl, rfl⟩
      · exact .inr ⟨c, hc, (hbb c hc).symm⟩
      · exact .inl rfl
    · rintro (rfl | ⟨c, hc, rfl⟩)
      · exact ⟨_, .inr rfl, rfl⟩
      · exact ⟨_, .inl ⟨c, hc, rfl⟩, hbb c hc⟩
  have hinj : Function.Injective s.sb.bitmapBlock := fun g g' he =>
    (Superblock.groupStart_inj h.geom.meta_le h.geom.meta_le he).1
  rw [← Finset.card_image_of_injective (passed s s') fun _ _ => UInt32.toNat_inj.1, himage,
    Finset.card_insert_of_notMem, Finset.card_image_of_injective _ hinj]
  rw [Finset.mem_image]
  rintro ⟨g, -, he⟩
  exact h.geom.IBLOCK_ne_bitmapBlock hin g he.symm

/-- **Freeing an inode fits in one reservation exactly when its blocks lie in few
groups.**  `iput` of the last reference to an inode without links returns, and
it has passed at most `MAXOPBLOCKS` distinct blocks to `log_write` if and only if
the blocks of the inode lie in at most `MAXOPBLOCKS - 1` groups. -/
theorem iput_fits_iff (h : Inv s) (hk : s.Loaded k) (hr : (s.icache k).ref = 1)
    (hn : (s.icache k).nlink = 0) (hl : (s.icache k).locked = false) :
    ∃ s', iput k s = .ok (⟨⟩, s') ∧ ((passed s s').card ≤ MAXOPBLOCKS ↔
      (groupsOf s (s.icache k).toDinode).card ≤ MAXOPBLOCKS - 1) := by
  obtain ⟨_, s', hok, hs⟩ := exists_ok_of_wp (wp_iput_last h hk hr hn hl)
  refine ⟨s', hok, ?_⟩
  rw [card_passed_reclaimed h hk hs]
  simp only [MAXOPBLOCKS]
  omega

end Logged

/-- A file without links, with one direct block in each of ten groups. -/
def spreadFile : Dinode where
  type := T_FILE
  major := 0
  minor := 0
  nlink := 0
  size := 5120
  addrs j := if j.val < 10 then UInt32.ofNat (37 + 200 * j) else 0

theorem inv_spreadFile : Inv (oneFile (fun _ => 0xff) spreadFile) :=
  inv_oneFile (by decide +kernel) (by decide) rfl (by decide +kernel) (by decide +kernel)

/-- Freeing a file with blocks in ten groups logs eleven blocks. -/
theorem iput_ten_groups :
    Inv (oneFile (fun _ => 0xff) spreadFile) ∧
    ((oneFile (fun _ => 0xff) spreadFile).icache 0).nlink = 0 ∧
    ((oneFile (fun _ => 0xff) spreadFile).icache 0).ref = 1 ∧
    ∃ s', iput 0 (oneFile (fun _ => 0xff) spreadFile) = .ok (⟨⟩, s') ∧
      ¬ (passed (oneFile (fun _ => 0xff) spreadFile) s').card ≤ MAXOPBLOCKS := by
  have hk : (oneFile (fun _ => 0xff) spreadFile).Loaded 0 := oneFile_loaded.2 rfl
  have hic := @oneFile_icache (fun _ => 0xff) spreadFile
  have hwp := wp_iput_last (E := fun _ => False) inv_spreadFile hk (by rw [hic]) (by rw [hic]; rfl)
    (by rw [hic])
  obtain ⟨_, s', hok, hs⟩ := exists_ok_of_wp hwp
  refine ⟨inv_spreadFile, by rw [hic]; rfl, by rw [hic], s', hok, ?_⟩
  have hgroups : (groupsOf (oneFile (fun _ => 0xff) spreadFile) spreadFile).card = 10 := by
    decide +kernel
  have hcard := card_passed_reclaimed inv_spreadFile hk hs
  rw [hic, hgroups] at hcard
  rw [hcard]
  decide

/-- The hypotheses of `iput_fits_iff` are satisfiable: the same file. -/
theorem iput_fits_iff_spreadFile :
    ∃ s', iput 0 (oneFile (fun _ => 0xff) spreadFile) = .ok (⟨⟩, s') ∧
      ((passed (oneFile (fun _ => 0xff) spreadFile) s').card ≤ MAXOPBLOCKS ↔
        (groupsOf (oneFile (fun _ => 0xff) spreadFile) spreadFile).card ≤ MAXOPBLOCKS - 1) := by
  have hic := @oneFile_icache (fun _ => 0xff) spreadFile
  have hiff := iput_fits_iff inv_spreadFile (oneFile_loaded.2 rfl) (by rw [hic]) (by rw [hic]; rfl)
    (by rw [hic])
  rwa [hic] at hiff

end Xv6.Fs
