/-
# A chunk of `filewrite` fits in the log

`filewrite` cuts a write into chunks of three blocks' worth of bytes, one
operation of the log for each, and an operation may pass at most `MAXOPBLOCKS`
distinct blocks to `log_write`.  A chunk can span four blocks; each new one costs
itself and a bitmap, which may be another one every time, the indirect block may
be new too, and the inode is written at the end.  That is at most ten
(`writei_chunk_fits`), because the first of four blocks is never new: the file
reaches up to it.

The indirect block is counted once however often it is logged, so what is counted
is a set of block numbers beside it (`Logs`).
-/

import Xv6.Fs.ByteArray

namespace Xv6.Fs

open Lib List Nat

variable {s s₁ s' : State} {k : Slot} {E : Fail → Prop} {src : ℕ → UInt8} {off n c d : ℕ}
  {P : UInt32 → Prop}

/-- The blocks that were logged between `s` and `s'`. -/
def State.loggedSince (s s' : State) : List UInt32 := s'.logged.drop s.logged.length

/-- Besides blocks that meet `P`, at most `c` blocks were logged between `s` and `s'`. -/
structure Logs (P : UInt32 → Prop) (c : ℕ) (s s' : State) : Prop where
  more : s.logged <+: s'.logged
  count : ∃ T : Finset UInt32, T.card ≤ c ∧ ∀ b ∈ s.loggedSince s', b ∈ T ∨ P b

theorem loggedSince_append {l : List UInt32} (h : s'.logged = s.logged ++ l) :
    s.loggedSince s' = l := by
  rw [State.loggedSince, h, drop_left]

theorem mem_loggedSince_trans (h : s.logged <+: s₁.logged) (h' : s₁.logged <+: s'.logged)
    {b : UInt32} (hb : b ∈ s.loggedSince s') : b ∈ s.loggedSince s₁ ∨ b ∈ s₁.loggedSince s' := by
  obtain ⟨u, hu⟩ := h
  obtain ⟨v, hv⟩ := h'
  rw [loggedSince_append (hv.symm.trans (by rw [← hu, append_assoc]))] at hb
  rw [loggedSince_append hu.symm, loggedSince_append hv.symm]
  exact mem_append.1 hb

/-- Two stretches of a run. -/
theorem Logs.trans (h : Logs P c s s₁) (h' : Logs P d s₁ s') :
    Logs P (c + d) s s' := by
  obtain ⟨T, hT, hl⟩ := h.count
  obtain ⟨T', hT', hl'⟩ := h'.count
  refine ⟨h.more.trans h'.more, T ∪ T', (Finset.card_union_le T T').trans (Nat.add_le_add hT hT'),
    fun b hb => ?_⟩
  rw [Finset.mem_union]
  rcases mem_loggedSince_trans h.more h'.more hb with hb | hb
  · rcases hl b hb with hm | hm
    · exact .inl (.inl hm)
    · exact .inr hm
  · rcases hl' b hb with hm | hm
    · exact .inl (.inr hm)
    · exact .inr hm

theorem Logs.mono {P' : UInt32 → Prop} (h : Logs P c s s') (hcd : c ≤ d)
    (hP : ∀ b, P b → P' b) : Logs P' d s s' := by
  obtain ⟨T, hT, hl⟩ := h.count
  exact ⟨h.more, T, hT.trans hcd, fun b hb => (hl b hb).imp_right (hP b)⟩

/-- The bitmap of a new indirect block. -/
def indCost (k : Slot) (s s' : State) : ℕ :=
  if s.indirect k = 0 ∧ s'.indirect k ≠ 0 then 1 else 0

theorem Logs.of_list {l : List UInt32} (h : s'.logged = s.logged ++ l)
    (T : Finset UInt32) (hT : T.card ≤ c) (hl : ∀ b ∈ l, b ∈ T ∨ P b) : Logs P c s s' :=
  ⟨h ▸ prefix_append _ _, T, hT, by rwa [loggedSince_append h]⟩

/-! ### One block -/

/-- What `bmap` may log besides bitmaps when it returns `r`: the indirect block, which is block 0
only if that fails, and the new block. -/
def MapLogs (k : Slot) (r : UInt32) (s' : State) (b : UInt32) : Prop :=
  (b = s'.indirect k ∧ (r ≠ 0 → b ≠ 0)) ∨ (b = r ∧ r ≠ 0)

/-- The entry of the indirect block: a bitmap if the entry is new. -/
theorem wp_entryOrAlloc_logs (h : Inv s) {j : ℕ} (hind : s.indirect k = 0 → s.free = 0) :
    wp (entryOrAlloc (s.indirect k) j) E (fun r s' => s'.indirect k = s.indirect k ∧
      Logs (MapLogs k r s')
        (if (s.disk (s.indirect k).toNat).getU32 (4 * j) = 0 then 1 else 0) s s') s := by
  refine wp_entryOrAlloc h (fun h0 => ⟨rfl, ?_⟩) (fun h0 _ => ⟨rfl, ?_⟩) fun h0 b hb => ⟨rfl, ?_⟩
  · exact .of_list (l := []) (append_nil _).symm ∅ (zero_le _) fun b hb =>
      absurd hb not_mem_nil
  · refine .of_list (l := [s.indirect k]) rfl ∅ (zero_le _) fun b hb => ?_
    exact .inr (.inl ⟨mem_singleton.1 hb, fun hc => absurd rfl hc⟩)
  · have hi : s.indirect k ≠ 0 := fun hi => absurd (hind hi) (Finset.card_pos.2 ⟨_, hb⟩).ne'
    rw [if_pos h0]
    refine .of_list (l := [BBLOCK b s.sb, b, s.indirect k]) ?_ {BBLOCK b s.sb}
      (Finset.card_singleton _).le fun c hc => ?_
    · rw [store_logged, State.allocated, append_assoc]
      rfl
    · rw [mem_cons, mem_cons, mem_singleton] at hc
      rcases hc with rfl | rfl | rfl
      · exact .inl (Finset.mem_singleton_self _)
      · exact .inr (.inr ⟨rfl, ne_zero_of_mem_freeBlocks h hb⟩)
      · exact .inr (.inl ⟨rfl, fun _ => hi⟩)

/-- **What `bmap` logs**: a bitmap for a new block and one for a new indirect block, besides these
blocks themselves. -/
theorem wp_bmap_logs (h : Inv s) (hk : s.Loaded k) {bn : ℕ} (hbn : bn < MAXFILE) :
    wp (bmap k bn) E (fun r s' => Logs (MapLogs k r s')
      ((if s.addr k bn = 0 then 1 else 0) + indCost k s s') s s') s := by
  by_cases hd : bn < NDIRECT
  · have haddr : s.addr k bn = (s.icache k).addrs ⟨bn, lt_succ_of_lt hd⟩ := by
      rw [State.addr, blockAddr, dataPlace, if_pos hd]
      exact holds_addr (i := ⟨bn, lt_succ_of_lt hd⟩)
    rw [bmap_direct hd]
    refine wp_addrOrAlloc h (fun h0 => ?_) (fun h0 _ => ?_) fun h0 b hb => ?_
    · exact .of_list (l := []) (append_nil _).symm ∅ (zero_le _) fun b hb =>
        absurd hb not_mem_nil
    · exact .of_list (l := []) (append_nil _).symm ∅ (zero_le _) fun b hb =>
        absurd hb not_mem_nil
    · rw [haddr, if_pos h0]
      refine .of_list (l := [BBLOCK b s.sb, b]) rfl {BBLOCK b s.sb} ?_ fun c hc => ?_
      · rw [Finset.card_singleton]
        omega
      · rw [mem_cons, mem_singleton] at hc
        rcases hc with rfl | rfl
        · exact .inl (Finset.mem_singleton_self _)
        · exact .inr (.inr ⟨rfl, ne_zero_of_mem_freeBlocks h hb⟩)
  · obtain ⟨j, rfl⟩ := Nat.exists_eq_add_of_le (Nat.le_of_not_lt hd)
    have hj : j < NINDIRECT := by
      simp only [MAXFILE, NDIRECT, NINDIRECT] at *
      omega
    have hnone : s.indirect k = 0 → s.addr k (NDIRECT + j) = 0 := by
      intro h0
      refine held_eq_zero h0 ?_
      rw [dataPlace, if_neg (by omega)]
      omega
    rw [bmap_indirect hj, wp_bind]
    refine wp_addrOrAlloc h (fun h0 => ?_) (fun h0 hfree => ?_) fun h0 b hb => ?_
    · refine wp_mono (wp_entryOrAlloc_logs h fun hc => absurd hc h0) fun r s' hl => ?_
      rw [addr_indirect h0]
      exact hl.2.mono (le_add_right _ _) fun _ hb => hb
    · have hg := Grows.print (k := k) h "balloc: out of blocks"
      have hentry := wp_entryOrAlloc_logs (E := E) (j := j) (k := k) hg.inv fun _ => hfree
      rw [show (s.print "balloc: out of blocks").indirect k = 0 from h0] at hentry
      refine wp_mono hentry fun r s' hl => ?_
      have hl' : Logs (MapLogs k r s') _ s s' := ⟨hl.2.more, hl.2.count⟩
      refine hl'.mono ?_ fun _ hb => hb
      rw [if_pos (hnone h0)]
      split_ifs <;> omega
    · obtain ⟨hg, hnew⟩ := grows_newAddr h hk h0 hb
      have hb0 := ne_zero_of_mem_freeBlocks h hb
      have hind : ((s.allocated b).setInode k (·.setAddr (Fin.last NDIRECT) b)).indirect k = b := by
        rw [← held_indirect, hnew, if_pos (Fin.val_last NDIRECT).symm]
      generalize hs1 : (s.allocated b).setInode k (·.setAddr (Fin.last NDIRECT) b) = s₁ at *
      have hlog : s₁.logged = s.logged ++ [BBLOCK b s.sb, b] := by
        rw [← hs1]
        rfl
      have hentry := wp_entryOrAlloc_logs (E := E) (j := j) (k := k) hg.inv fun hc =>
        absurd (hind.symm.trans hc) hb0
      rw [hind] at hentry
      refine wp_mono hentry fun r s' hrun => ?_
      obtain ⟨hkeep, hl⟩ := hrun
      have hfirst : Logs (MapLogs k r s') 1 s s₁ := by
        refine .of_list hlog {BBLOCK b s.sb} (Finset.card_singleton _).le fun c hc => ?_
        rw [mem_cons, mem_singleton] at hc
        rcases hc with rfl | rfl
        · exact .inl (Finset.mem_singleton_self _)
        · exact .inr (.inl ⟨hkeep.symm, fun _ => hb0⟩)
      refine (hfirst.trans hl).mono ?_ fun _ hb => hb
      have hcost : indCost k s s' = 1 := by
        rw [indCost, hkeep]
        exact if_pos ⟨h0, hb0⟩
      rw [if_pos (hnone h0), hcost]
      split_ifs <;> omega

/-! ### The loop -/

/-- The cost of a new indirect block over two stretches, where one that is there stays. -/
theorem indCost_trans (h : s.indirect k ≠ 0 → s₁.indirect k = s.indirect k)
    (h' : s₁.indirect k ≠ 0 → s'.indirect k = s₁.indirect k) :
    indCost k s s₁ + indCost k s₁ s' ≤ indCost k s s' := by
  unfold indCost
  by_cases h0 : s.indirect k = 0
  · by_cases h1 : s₁.indirect k = 0
    · rw [if_neg fun hc => hc.2 h1]
      simp only [h0, h1, true_and]
      omega
    · rw [if_pos ⟨h0, h1⟩, if_neg fun hc => h1 hc.1, h' h1, if_pos ⟨h0, h1⟩]
  · rw [if_neg fun hc => h0 hc.1, if_neg fun hc => h0 ((h h0) ▸ hc.1), if_neg fun hc => h0 hc.1]

/-- The blocks of the range that are not mapped. -/
def unmapped (s : State) (k : Slot) (off n : ℕ) : Finset ℕ :=
  (touched off n).filter fun bn => s.addr k bn = 0

/-- What a run of the loop of `writei` logs: the blocks it writes, a bitmap for each new one, and
the bitmap of a new indirect block, besides the indirect block. -/
structure LoopLogs (k : Slot) (off n : ℕ) (s s' : State) : Prop where
  keep : s.indirect k ≠ 0 → s'.indirect k = s.indirect k
  logs : Logs (· = s'.indirect k)
    ((touched off n).card + (unmapped s k off n).card + indCost k s s') s s'

theorem LoopLogs.refl (s : State) : LoopLogs k off n s s :=
  ⟨fun _ => rfl, .of_list (l := []) (append_nil _).symm ∅ (zero_le _) fun _ hb =>
    absurd hb not_mem_nil⟩

/-- The first block cannot be mapped. -/
theorem LoopLogs.stop (hbn : off / BSIZE < MAXFILE) (hn : 0 < n)
    (hmap : Mapped k (off / BSIZE) s 0 s')
    (hl : Logs (MapLogs k 0 s')
      ((if s.addr k (off / BSIZE) = 0 then 1 else 0) + indCost k s s') s s') :
    LoopLogs k off n s s' := by
  have hmem : off / BSIZE ∈ touched off n := div_mem_touched le_rfl (by omega) (by
    simp only [MAXFILE, BSIZE] at *
    omega)
  have hpos := Finset.card_pos.2 ⟨_, hmem⟩
  refine ⟨fun h0 => hmap.indirect (.inl h0), hl.mono ?_ fun b hb => ?_⟩
  · split_ifs <;> omega
  · rcases hb with hb | hb
    · exact hb.1
    · exact absurd rfl hb.2

/-- One block is stored, and the loop goes on with the next one. -/
theorem LoopLogs.cons {r : UInt32} {m m' : ℕ} {blk : Block} (hn : m + m' = n)
    (hm : 0 < m) (hb : off % BSIZE + m ≤ BSIZE) (hbn : off / BSIZE < MAXFILE)
    (hnext : off / BSIZE ∉ touched (off + m) m') (hmap : Mapped k (off / BSIZE) s r s₁) (h0 : r ≠ 0)
    (hrest : ∀ bn ∉ touched off m, (s₁.store r blk).addr k bn = s.addr k bn)
    (hl : Logs (MapLogs k r s₁)
      ((if s.addr k (off / BSIZE) = 0 then 1 else 0) + indCost k s s₁) s s₁)
    (hrun : LoopLogs k (off + m) m' (s₁.store r blk) s') : LoopLogs k off n s s' := by
  have hT : touched off n = insert (off / BSIZE) (touched (off + m) m') := by
    rw [← hn, touched_add, touched_block hm hb hbn, Finset.singleton_union]
  have hcard : (touched off n).card = (touched (off + m) m').card + 1 := by
    rw [hT, Finset.card_insert_of_notMem hnext]
  have hnew : (unmapped s k off n).card = (if s.addr k (off / BSIZE) = 0 then 1 else 0) +
        (unmapped (s₁.store r blk) k (off + m) m').card := by
    have htail : (touched (off + m) m').filter (fun bn => s.addr k bn = 0) =
        unmapped (s₁.store r blk) k (off + m) m' := by
      refine Finset.filter_congr fun bn hmem => ?_
      rw [hrest bn]
      rw [touched_block hm hb hbn, Finset.mem_singleton]
      rintro rfl
      exact hnext hmem
    rw [unmapped, hT, Finset.filter_insert, htail]
    split_ifs with haddr
    · have hnot : off / BSIZE ∉ unmapped (s₁.store r blk) k (off + m) m' := fun hc =>
        hnext (Finset.mem_filter.1 hc).1
      rw [Finset.card_insert_of_notMem hnot, add_comm]
    · rw [zero_add]
  have hkeep : s.indirect k ≠ 0 → s₁.indirect k = s.indirect k := fun h => hmap.indirect (.inl h)
  have hkeep' : s₁.indirect k ≠ 0 → s'.indirect k = s₁.indirect k := hrun.keep
  have hcost := indCost_trans hkeep hkeep'
  have hfirst : Logs (· = s'.indirect k)
      ((if s.addr k (off / BSIZE) = 0 then 1 else 0) + indCost k s s₁ + 1) s (s₁.store r blk) := by
    obtain ⟨T, hcardT, hT⟩ := hl.count
    have hmore : s₁.logged <+: (s₁.store r blk).logged := prefix_append _ _
    refine ⟨hl.more.trans hmore, insert r T, (Finset.card_insert_le _ _).trans
      (Nat.add_le_add_right hcardT 1), fun b hb => ?_⟩
    rw [Finset.mem_insert]
    rcases mem_loggedSince_trans hl.more hmore hb with hb | hb
    · rcases hT b hb with hb | ⟨hb, hb0⟩ | ⟨hb, -⟩
      · exact .inl (.inr hb)
      · exact .inr (hb.trans (hkeep' (hb ▸ hb0 h0)).symm)
      · exact .inl (.inl hb)
    · rw [loggedSince_append (store_logged _ _ _), mem_singleton] at hb
      exact .inl (.inl hb)
  refine ⟨fun h => (hkeep' ((hkeep h).symm ▸ h)).trans (hkeep h),
    (hfirst.trans hrun.logs).mono ?_ fun _ hb => hb⟩
  have hsame : indCost k (s₁.store r blk) s' = indCost k s₁ s' := rfl
  omega

/-- **What the loop of `writei` logs.** -/
theorem wp_writeLoop_logs (h : Inv s) (hk : s.Loaded k) (tot : ℕ)
    (hmax : off + (n - tot) ≤ MAXFILE * BSIZE) :
    wp (writeLoop k src n tot off) E (fun _ s' => LoopLogs k off (n - tot) s s') s := by
  induction hd : n - tot using Nat.strong_induction_on generalizing s tot off with
  | _ d ih =>
    rw [writeLoop]
    split_ifs with ht
    · have hpos := chunk_pos off ht
      have hle := chunk_le_rest n tot off
      have hblk := chunk_le n tot off
      have hbn : off / BSIZE < MAXFILE := by
        simp only [MAXFILE, BSIZE] at *
        omega
      rw [wp_bind]
      have hboth := wp_and (wp_bmap (E := E) h hk hbn) (wp_bmap_logs (E := E) h hk hbn)
      refine wp_mono (wp_mono_fail hboth fun _ he => he.1) ?_
      rintro r s₁ ⟨hmap, hl⟩
      rw [wp_ite]
      refine ⟨fun hr => ?_, fun hr => ?_⟩
      · subst hr
        exact wp_pure.2 (.stop hbn (by omega) hmap hl)
      · simp only [bread, logWrite, wp_bind, wp_get, wp_pure, wp_modify]
        have hst := hmap.stored (fun i => src (tot + i)) hk hpos hblk hbn hr
        refine wp_mono (ih _ (by omega) hst.inv (hst.loaded hk) _ (by omega) rfl)
          fun _ s' hrun => ?_
        exact .cons (by omega) hpos hblk hbn (div_notMem_touched n tot off) hmap hr hst.rest hl hrun
    · exact wp_pure.2 (.refl s)

/-! ### One call of `writei` -/

/-- The blocks of three blocks' worth of bytes, and the new ones among them: a range of four blocks
starts inside a block that the file reaches. -/
theorem touched_chunk (hno : NoHoles s k) (hoff : off ≤ (s.icache k).size.toNat)
    (hn : n ≤ (MAXOPBLOCKS - 1 - 1 - 2) / 2 * 512) :
    (touched off n).card + (unmapped s k off n).card ≤ 7 := by
  simp only [MAXOPBLOCKS] at hn
  by_cases hmod : off % BSIZE = 0
  · have hsub : touched off n ⊆ Finset.Ico (off / BSIZE) (off / BSIZE + 3) := by
      intro bn hbn
      rw [mem_touched] at hbn
      rw [Finset.mem_Ico]
      simp only [BSIZE, MAXFILE] at *
      omega
    have hcard := Finset.card_le_card hsub
    have hnew : (unmapped s k off n).card ≤ (touched off n).card := Finset.card_filter_le _ _
    rw [card_Ico] at hcard
    omega
  · have hsub : touched off n ⊆ Finset.Ico (off / BSIZE) (off / BSIZE + 4) := by
      intro bn hbn
      rw [mem_touched] at hbn
      rw [Finset.mem_Ico]
      simp only [BSIZE, MAXFILE] at *
      omega
    have hnew : unmapped s k off n ⊆ Finset.Ico (off / BSIZE + 1) (off / BSIZE + 4) := by
      intro bn hbn
      obtain ⟨hmem, haddr⟩ := Finset.mem_filter.1 hbn
      have hin := Finset.mem_Ico.1 (hsub hmem)
      have hne : bn ≠ off / BSIZE := by
        rintro rfl
        refine hno _ ?_ haddr
        have := div_add_mod' off BSIZE
        omega
      rw [Finset.mem_Ico]
      omega
    have hcard := Finset.card_le_card hsub
    have hcard' := Finset.card_le_card hnew
    rw [card_Ico] at hcard hcard'
    omega

/-- Blocks that were counted beside the indirect block, and the inode's block. -/
theorem Logs.card_le {a : UInt32} (h : Logs (· = a) c s s') :
    (s.loggedSince s').toFinset.card ≤ c + 1 := by
  obtain ⟨T, hT, hl⟩ := h.count
  have hsub : (s.loggedSince s').toFinset ⊆ insert a T := by
    intro b hb
    rw [Finset.mem_insert]
    exact (hl b (mem_toFinset.1 hb)).symm
  exact (Finset.card_le_card hsub).trans ((Finset.card_insert_le _ _).trans
    (Nat.add_le_add_right hT 1))

/-- **A chunk of `filewrite` fits in one operation of the log.** -/
theorem writei_chunk_fits (h : Inv s) (hk : s.Loaded k) (hty : (s.icache k).type ≠ T_DEV)
    (hno : NoHoles s k) (src : ℕ → UInt8) (off n : UInt32)
    (hn : n.toNat ≤ (MAXOPBLOCKS - 1 - 1 - 2) / 2 * 512) :
    ∃ r s', writei k src off n s = .ok (r, s') ∧ s.logged <+: s'.logged ∧
      (s.loggedSince s').toFinset.card ≤ MAXOPBLOCKS := by
  have hsame : s.logged <+: s.logged ∧ (s.loggedSince s).toFinset.card ≤ MAXOPBLOCKS := by
    rw [loggedSince_append (append_nil _).symm]
    exact ⟨prefix_refl _, zero_le _⟩
  suffices hwp : wp (writei k src off n) (fun _ => False) (fun _ s' => s.logged <+: s'.logged ∧
      (s.loggedSince s').toFinset.card ≤ MAXOPBLOCKS) s from exists_ok_of_wp hwp
  unfold writei
  rw [wp_bind, wp_get]
  simp only [if_neg hty]
  split_ifs with h₁ h₂
  · exact wp_pure.2 hsame
  · exact wp_pure.2 hsame
  · rw [not_or, add_lt_iff, UInt32.lt_iff_toNat_lt, not_lt, not_le] at h₁
    rw [UInt32.lt_iff_toNat_lt, UInt32.toNat_add, mod_eq_of_lt h₁.2, not_lt] at h₂
    have hmax : off.toNat + n.toNat ≤ MAXFILE * BSIZE := h₂
    have hcount := touched_chunk hno h₁.1 hn
    rw [wp_bind]
    refine wp_mono (wp_writeLoop_logs h hk 0 hmax) fun _ s₁ hrun => ?_
    rw [Nat.sub_zero] at hrun
    have hone : indCost k s s₁ ≤ 1 := by
      unfold indCost
      split_ifs <;> omega
    have hlogs : Logs (· = s₁.indirect k) 8 s s₁ := hrun.logs.mono (by omega) fun _ hb => hb
    simp only [getInode, wp_bind, wp_get, wp_pure]
    rw [wp_ite]
    refine ⟨fun _ => ?_, fun _ => wp_pure.2 ⟨hlogs.more, hlogs.card_le.trans (by decide)⟩⟩
    simp only [setInode, iupdate, getInode, wp_bind, wp_modify, wp_get, wp_pure, wp_storeDinode]
    -- the inode's block comes on top
    generalize hs' : State.putInode _ _ _ = s'
    have hlast : Logs (· = s₁.indirect k) 1 s₁ s' := by
      subst hs'
      exact .of_list rfl _ (Finset.card_singleton _).le fun b hb =>
        .inl (Finset.mem_singleton.2 (mem_singleton.1 hb))
    exact ⟨(hlogs.trans hlast).more, (hlogs.trans hlast).card_le⟩

/-- The hypotheses of `writei_chunk_fits` are satisfiable: a full chunk goes to an empty file. -/
theorem writei_chunk_fits_emptyFile :
    ∃ r s', writei 0 (fun _ => 1) 0 1536 (oneFile emptyGroup emptyFile) = .ok (r, s') ∧
      ((oneFile emptyGroup emptyFile).loggedSince s').toFinset.card ≤ MAXOPBLOCKS := by
  have hic := @oneFile_icache emptyGroup emptyFile
  obtain ⟨r, s', hs, -, hcard⟩ := writei_chunk_fits (inv_emptyFile emptyGroup (by decide +kernel))
    (oneFile_loaded.2 rfl) (by rw [hic]; decide) noHoles_emptyFile (fun _ => 1) 0 1536 (by decide)
  exact ⟨r, s', hs, hcard⟩

end Xv6.Fs
