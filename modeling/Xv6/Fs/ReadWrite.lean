/-
# Reading and writing files

`readi` and `writei` of `fs.c` on a file that is not a device.  The bytes of the
file are `State.data`; a read returns them, and a write overlays them with the
first `m` bytes of its source, where `m` is smaller than asked for exactly when
the disk has fewer free blocks than the write needs (`need`).

`readi` may add blocks to the file (`Grows`): a block that is not mapped is
allocated when it is read.  When the disk is full the read goes to block 0, which
holds zeros, so that the bytes returned are the same.
-/

import Xv6.Fs.Bmap

namespace Xv6.Fs

open Function Lib List Nat State UInt32
open Finset (mem_union)

/-- Byte `x` of the file in entry `k`. -/
def State.data (s : State) (k : Slot) (x : ℕ) : UInt8 := content s.disk (s.icache k).toDinode x

/-- The bytes `f` overlaid with `n` bytes of `src` at `off`. -/
def overlaid (f src : ℕ → UInt8) (off n x : ℕ) : UInt8 :=
  if off ≤ x ∧ x < off + n then src (x - off) else f x

/-- Every block below the size of the file in entry `k` is mapped. -/
def NoHoles (s : State) (k : Slot) : Prop :=
  ∀ bn, bn * BSIZE < (s.icache k).size.toNat → s.addr k bn ≠ 0

/-- The blocks of a file that hold one of the bytes `off`, …, `off + n - 1`. -/
def touched (off n : ℕ) : Finset ℕ :=
  (Finset.range MAXFILE).filter fun bn => max off (bn * BSIZE) < min (off + n) ((bn + 1) * BSIZE)

/-- The blocks that have to be allocated before the blocks `T` of the file are mapped. -/
def needOf (D : Disk) (d : Dinode) (T : Finset ℕ) : ℕ :=
  (T.filter fun bn => blockAddr D d bn = 0).card +
    if (∃ bn ∈ T, NDIRECT ≤ bn) ∧ d.addrs (Fin.last NDIRECT) = 0 then 1 else 0

/-- The blocks a write of `n` bytes at `off` of the file in entry `k` has to allocate. -/
def need (s : State) (k : Slot) (off n : ℕ) : ℕ :=
  needOf s.disk (s.icache k).toDinode (touched off n)

section Overlaid

variable {f src : ℕ → UInt8} {off n m x : ℕ}

theorem overlaid_of_not (h : x < off ∨ off + n ≤ x) : overlaid f src off n x = f x :=
  if_neg (by omega)

theorem overlaid_zero : overlaid f src off 0 = f := funext fun _ => overlaid_of_not (by omega)

/-- Two adjacent overlays make one. -/
theorem overlaid_add : overlaid (overlaid f src off n) (fun i => src (n + i)) (off + n) m =
    overlaid f src off (n + m) := by
  funext x
  have hsrc : off + n ≤ x → n + (x - (off + n)) = x - off := by omega
  unfold overlaid
  split_ifs
  · exact congrArg src (hsrc (by omega))
  all_goals first | rfl | omega

end Overlaid

/-! ### The blocks of a range of bytes -/

section Touched

variable {off n m bn : ℕ}

theorem mem_touched : bn ∈ touched off n ↔
    bn < MAXFILE ∧ max off (bn * BSIZE) < min (off + n) ((bn + 1) * BSIZE) := by
  rw [touched, Finset.mem_filter, Finset.mem_range]

theorem div_mem_touched {x : ℕ} (h1 : off ≤ x) (h2 : x < off + n) (h : x < MAXFILE * BSIZE) :
    x / BSIZE ∈ touched off n := by
  rw [mem_touched]
  simp only [MAXFILE, BSIZE] at *
  omega

theorem touched_zero : touched off 0 = ∅ := by
  refine Finset.eq_empty_of_forall_notMem fun bn hbn => ?_
  have := (mem_touched.1 hbn).2
  omega

theorem touched_add : touched off (n + m) = touched off n ∪ touched (off + n) m := by
  ext bn
  rw [mem_union, mem_touched, mem_touched, mem_touched]
  simp only [MAXFILE, BSIZE]
  omega

/-- A range inside one block. -/
theorem touched_block (hm : 0 < m) (hb : off % BSIZE + m ≤ BSIZE) (hoff : off / BSIZE < MAXFILE) :
    touched off m = {off / BSIZE} := by
  ext bn
  rw [Finset.mem_singleton, mem_touched]
  simp only [MAXFILE, BSIZE] at *
  omega

/-- What one round of the loops copies lies in one block. -/
theorem chunk_le (n tot off : ℕ) : off % BSIZE + chunk n tot off ≤ BSIZE := by
  have := mod_lt off (show 0 < BSIZE by decide)
  rw [chunk]
  omega

theorem chunk_le_rest (n tot off : ℕ) : chunk n tot off ≤ n - tot := min_le_left _ _

/-- The bytes of one round are consecutive bytes of the block. -/
theorem div_mod_chunk (off i : ℕ) (h : off % BSIZE + i < BSIZE) :
    (off + i) / BSIZE = off / BSIZE ∧ (off + i) % BSIZE = off % BSIZE + i := by
  simp only [BSIZE] at *
  omega

/-- The next round goes on in the next block. -/
theorem div_notMem_touched (n tot off : ℕ) :
    off / BSIZE ∉ touched (off + chunk n tot off) (n - (tot + chunk n tot off)) := by
  rw [mem_touched, chunk]
  simp only [BSIZE]
  omega

end Touched

section Need

variable {D D' : Disk} {d d' : Dinode} {T T' : Finset ℕ}

theorem needOf_singleton {s : State} {k : Slot} {bn : ℕ} :
    needOf s.disk (s.icache k).toDinode {bn} = bmapCost s k bn := by
  unfold needOf bmapCost addr indirect
  rw [Finset.filter_singleton]
  simp only [Finset.mem_singleton, exists_eq_left]
  by_cases h0 : blockAddr s.disk (s.icache k).toDinode bn = 0 <;>
  by_cases h1 : NDIRECT ≤ bn ∧ (s.icache k).addrs (Fin.last NDIRECT) = 0 <;> simp [h0, h1]

/-- Nothing has to be allocated when every block is mapped. -/
theorem needOf_eq_zero : needOf D d T = 0 ↔ ∀ bn ∈ T, blockAddr D d bn ≠ 0 := by
  rw [needOf, Nat.add_eq_zero_iff, Finset.card_eq_zero, Finset.filter_eq_empty_iff]
  refine ⟨fun h => h.1, fun h => ⟨h, if_neg ?_⟩⟩
  rintro ⟨⟨bn, hbn, hle⟩, h0⟩
  refine h bn hbn ?_
  rw [blockAddr, dataPlace, if_neg (by omega), holds,
    dif_neg (by simp only [NDIRECT] at hle; omega),
    if_pos h0]

theorem needOf_mono (h : T ⊆ T') : needOf D d T ≤ needOf D d T' := by
  refine Nat.add_le_add (Finset.card_le_card (Finset.filter_subset_filter _ h)) ?_
  split_ifs with h1 h2
  · exact le_rfl
  · obtain ⟨⟨bn, hbn, hle⟩, h0⟩ := h1
    exact absurd ⟨⟨bn, h hbn, hle⟩, h0⟩ h2
  · exact zero_le _
  · exact le_rfl

/-- At most one block is needed for each block of the file, and the indirect block. -/
theorem needOf_le (D : Disk) (d : Dinode) (T : Finset ℕ) : needOf D d T ≤ T.card + 1 := by
  refine Nat.add_le_add (Finset.card_filter_le _ _) ?_
  split_ifs <;> decide

/-- **What is left to allocate** once the blocks `T` are mapped. -/
theorem needOf_union (hT : ∀ bn ∈ T, blockAddr D' d' bn ≠ 0)
    (hrest : ∀ bn ∉ T, blockAddr D' d' bn = blockAddr D d bn)
    (hind : (∃ bn ∈ T, NDIRECT ≤ bn) → d'.addrs (Fin.last NDIRECT) ≠ 0)
    (hind' : (¬ ∃ bn ∈ T, NDIRECT ≤ bn) →
      d'.addrs (Fin.last NDIRECT) = d.addrs (Fin.last NDIRECT)) :
    needOf D d (T ∪ T') = needOf D d T + needOf D' d' T' := by
  have hcard : ((T ∪ T').filter fun bn => blockAddr D d bn = 0).card =
      (T.filter fun bn => blockAddr D d bn = 0).card +
        (T'.filter fun bn => blockAddr D' d' bn = 0).card := by
    rw [← Finset.card_union_of_disjoint]
    · congr 1
      ext bn
      simp only [Finset.mem_filter, mem_union]
      by_cases hbn : bn ∈ T
      · simp [hbn, hT bn hbn]
      · simp [hbn, hrest bn hbn]
    · rw [Finset.disjoint_left]
      intro bn hbn hbn'
      exact hT bn (Finset.mem_filter.1 hbn).1 (Finset.mem_filter.1 hbn').2
  have hex : (∃ bn ∈ T ∪ T', NDIRECT ≤ bn) ↔
      (∃ bn ∈ T, NDIRECT ≤ bn) ∨ ∃ bn ∈ T', NDIRECT ≤ bn := by
    simp only [mem_union, or_and_right, exists_or]
  rw [needOf, needOf, needOf, hcard]
  simp only [hex]
  by_cases h1 : ∃ bn ∈ T, NDIRECT ≤ bn
  · simp only [h1, true_or, true_and, hind h1, and_false, if_false]
    omega
  · simp only [h1, false_or, false_and, if_false, hind' h1]
    omega

end Need

/-- The test for an overflow of the offset. -/
theorem add_lt_iff {off n : UInt32} : off + n < off ↔ 2 ^ 32 ≤ off.toNat + n.toNat := by
  rw [UInt32.lt_iff_toNat_lt, UInt32.toNat_add]
  have := off.toNat_lt
  have := n.toNat_lt
  omega

theorem toInt_eq {n : UInt32} (h : n.toNat < 2 ^ 31) : toInt n = n.toNat :=
  BitVec.toInt_eq_toNat_of_lt (x := n.toBitVec) (show 2 * n.toNat < 2 ^ 32 by omega)

/-! ### `readi` -/

section Read

variable {s : State} {k : Slot} {E : Fail → Prop}

/-- A byte of the file, read the way `readi` does it. -/
theorem data_eq (h : Inv s) (x : ℕ) :
    s.data k x = (s.disk (s.addr k (x / BSIZE)).toNat).byte (x % BSIZE) := by
  rw [data, content]
  split_ifs with h0
  · rw [addr, h0]
    exact ((congrArg (·.byte (x % BSIZE)) h.fmt.boot).trans (Buf.byte_zero _)).symm
  · rfl

theorem Grows.data {s s' : State} (h : Grows k s s') : s'.data k = s.data k := content_eq h.pages

/-- `bmap` of any block number adds blocks to the file. -/
theorem wp_bmap_grows (h : Inv s) (hk : s.Loaded k) (bn : ℕ) :
    wp (bmap k bn) E (fun r s' => Grows k s s' ∧ s'.addr k bn = r ∧
      (s.addr k bn ≠ 0 → s' = s)) s := by
  by_cases hbn : bn < MAXFILE
  · exact wp_mono (wp_bmap h hk hbn) fun r s' hm => ⟨hm.toGrows, hm.addr, hm.same⟩
  · have h0 : s.addr k bn = 0 := blockAddr_of_ge (Nat.le_of_not_lt hbn)
    simp only [MAXFILE] at hbn
    unfold bmap cprintf
    simp only [NDIRECT, NINDIRECT]
    rw [dif_neg (by omega), if_neg (by omega)]
    simp only [wp_bind, wp_modify, wp_pure]
    exact ⟨Grows.print h _, h0, fun hc => absurd h0 hc⟩

/-- **The loop of `readi`** copies the bytes of the file. -/
theorem wp_readLoop (h : Inv s) (hk : s.Loaded k) {n tot off : ℕ} :
    wp (readLoop k n tot off) E (fun bytes s' => Grows k s s' ∧
      bytes = (range (n - tot)).map (fun i => s.data k (off + i)) ∧
      ((∀ x, off ≤ x → x < off + (n - tot) → s.addr k (x / BSIZE) ≠ 0) → s' = s)) s := by
  induction hd : n - tot using Nat.strong_induction_on generalizing s tot off with
  | _ d ih =>
    rw [readLoop]
    split_ifs with ht
    · have hpos := chunk_pos off ht
      have hle := chunk_le_rest n tot off
      simp only [wp_bind]
      refine wp_mono (wp_bmap_grows h hk _) fun r s1 hmap => ?_
      obtain ⟨hg, hr, hsame⟩ := hmap
      simp only [bread, wp_bind, wp_get, wp_pure]
      refine wp_mono (ih _ (by omega) hg.inv (hg.loaded hk) rfl) fun bytes s' hrun => ?_
      obtain ⟨hg', hb, hs⟩ := hrun
      have hsplit : d = chunk n tot off + (n - (tot + chunk n tot off)) := by omega
      refine ⟨hg.trans hg', ?_, fun hall => ?_⟩
      · rw [hsplit, range_add, map_append, map_map, hb]
        congr 1
        · refine map_congr_left fun i hi => ?_
          have hlt := mem_range.1 hi
          have hblock := chunk_le n tot off
          obtain ⟨hdiv, hmod⟩ := div_mod_chunk off i (by omega)
          rw [← hg.data, data_eq hg.inv, hdiv, hmod, hr]
        · refine map_congr_left fun i _ => ?_
          rw [hg.data, comp, add_assoc]
      · have h1 := hsame (hall off le_rfl (by omega))
        rw [hs fun x hx hx' => ?_, h1]
        rw [h1]
        exact hall x (by omega) (by omega)
    · rw [wp_pure]
      refine ⟨Grows.refl h, ?_, fun _ => rfl⟩
      rw [← hd, show n - tot = 0 by omega]
      rfl

/-- **What `readi` does** on a file that is not a device: it returns the bytes of
the file up to its end. -/
theorem wp_readi (h : Inv s) (hk : s.Loaded k) (hty : (s.icache k).type ≠ T_DEV)
    {off n : UInt32} {Q : ℤ × List UInt8 → State → Prop}
    (herr : (s.icache k).size.toNat < off.toNat ∨ 2 ^ 32 ≤ off.toNat + n.toNat → Q (-1, []) s)
    (hrun : ∀ m s', off.toNat ≤ (s.icache k).size.toNat → off.toNat + n.toNat < 2 ^ 32 →
      m = min n.toNat ((s.icache k).size.toNat - off.toNat) → Grows k s s' →
      ((∀ x, off.toNat ≤ x → x < off.toNat + m → s.addr k (x / BSIZE) ≠ 0) → s' = s) →
      Q (toInt (ofNat m), (range m).map fun i => s.data k (off.toNat + i)) s') :
    wp (readi k off n) E Q s := by
  unfold readi
  rw [wp_bind, wp_get]
  simp only [if_neg hty]
  rw [wp_ite]
  refine ⟨fun h1 => ?_, fun h1 => ?_⟩
  · exact wp_pure.2 (herr (h1.imp lt_iff_toNat_lt.1 add_lt_iff.1))
  · rw [not_or, add_lt_iff, lt_iff_toNat_lt, not_lt, not_le] at h1
    have hm : (if (s.icache k).size < off + n then (s.icache k).size - off else n) =
        ofNat (min n.toNat ((s.icache k).size.toNat - off.toNat)) := by
      rw [← UInt32.toNat_inj, UInt32.toNat_ofNat', mod_eq_of_lt (by have := n.toNat_lt; omega)]
      split_ifs with hc
      · rw [UInt32.lt_iff_toNat_lt, UInt32.toNat_add, mod_eq_of_lt h1.2] at hc
        rw [UInt32.toNat_sub_of_le _ _ (UInt32.le_iff_toNat_le.2 h1.1)]
        omega
      · rw [UInt32.lt_iff_toNat_lt, UInt32.toNat_add, mod_eq_of_lt h1.2] at hc
        omega
    have hlt : min n.toNat ((s.icache k).size.toNat - off.toNat) < 2 ^ 32 := by
      have := n.toNat_lt; omega
    simp only [hm, wp_bind, wp_pure, toNat_ofNat', mod_eq_of_lt hlt]
    refine wp_mono (wp_readLoop h hk) fun bytes s' hloop => ?_
    rw [hloop.2.1, Nat.sub_zero]
    exact hrun _ s' h1.1 h1.2 rfl hloop.1 hloop.2.2

end Read

/-! ### `writei` -/

/-- The first `m` bytes of `src` have been stored at `off` of the file in entry `k`. -/
structure Stored (k : Slot) (src : ℕ → UInt8) (off m : ℕ) (s s' : State) : Prop
    extends Quiet k s s' where
  data : s'.data k = overlaid (s.data k) src off m
  rest : ∀ bn ∉ touched off m, s'.addr k bn = s.addr k bn
  mapped : ∀ bn ∈ touched off m, s'.addr k bn ≠ 0
  passed : ∀ bn ∈ touched off m, s'.addr k bn ∈ s'.logged.drop s.logged.length

/-- A write of `n` bytes at `off` has stopped after `m` of them: at the end, or
where there was no block left. -/
structure StoreRun (k : Slot) (src : ℕ → UInt8) (off n : ℕ) (s : State) (m : ℕ) (s' : State) :
    Prop extends Stored k src off m s s' where
  le : m ≤ n
  all : m = n → s'.console = s.console ∧ s.free = s'.free + need s k off n ∧
    ((∃ bn ∈ touched off n, NDIRECT ≤ bn) → s'.indirect k ≠ 0) ∧
    ((¬ ∃ bn ∈ touched off n, NDIRECT ≤ bn) → s'.indirect k = s.indirect k)
  short : m < n → RanOut s s' ∧ s'.free = 0 ∧ s.free < need s k off n ∧
    s'.addr k ((off + m) / BSIZE) = 0
  few : s'.logged.length ≤ s.logged.length + 6 * (touched off n).card

section Write

variable {s s1 s' : State} {k : Slot} {E : Fail → Prop} {src : ℕ → UInt8} {off n m m' : ℕ}

theorem Stored.refl (h : Inv s) : Stored k src off 0 s s :=
  { (Grows.refl h).toQuiet with
    data := overlaid_zero.symm
    rest := fun _ _ => rfl
    mapped := fun bn hbn => by simp [touched_zero] at hbn
    passed := fun bn hbn => by simp [touched_zero] at hbn }

theorem Stored.trans (h : Stored k src off m s s1)
    (h' : Stored k (fun i => src (m + i)) (off + m) m' s1 s') : Stored k src off (m + m') s s' := by
  refine { h.toQuiet.trans h'.toQuiet with
    data := by rw [h'.data, h.data, overlaid_add], rest := fun bn hbn => ?_
    mapped := fun bn hbn => ?_, passed := fun bn hbn => ?_ }
  · rw [touched_add, Finset.notMem_union] at hbn
    rw [h'.rest bn hbn.2, h.rest bn hbn.1]
  · rw [touched_add, mem_union] at hbn
    rcases hbn with hbn | hbn
    · rw [h'.keep bn (h.mapped bn hbn)]
      exact h.mapped bn hbn
    · exact h'.mapped bn hbn
  · rw [touched_add, mem_union] at hbn
    refine mem_drop_trans h.logged h'.logged ?_
    rcases hbn with hbn | hbn
    · rw [h'.keep bn (h.mapped bn hbn)]
      exact .inl (h.passed bn hbn)
    · exact .inr (h'.passed bn hbn)

/-- **One block of the file is stored.** -/
theorem stored_block (src : ℕ → UInt8) (h : Inv s) (hk : s.Loaded k) (hm : 0 < m)
    (hb : off % BSIZE + m ≤ BSIZE)
    (hbn : off / BSIZE < MAXFILE) {r : UInt32} (hr : s.addr k (off / BSIZE) = r) (h0 : r ≠ 0) :
    Stored k src off m s (s.store r ((s.disk r.toNat).overlay (off % BSIZE) m src)) := by
  obtain ⟨hinv, hcur⟩ := h.store_data hk hbn ((s.disk r.toNat).overlay (off % BSIZE) m src) hr h0
  have hlive := h.live hk
  have hc := h.coh.cur_loaded hk
  have hplace : holds s.disk (s.cur (s.icache k).inum) (dataPlace (off / BSIZE)) = r := by
    rw [hc]; exact hr
  have hdata : IsData s.sb r.toNat := by
    rw [← hplace] at h0 ⊢
    exact (h.isData hlive (dataPlace_lt hbn) h0).1
  have hne : ∀ l < NHELD, l ≠ dataPlace (off / BSIZE) → s.held k l ≠ 0 →
      (s.held k l).toNat ≠ r.toNat := fun l hl hne hl0 he => by
    rw [held, ← hc] at hl0 he
    rw [← hplace] at he
    exact hne (h.held_inj hlive hlive hl (dataPlace_lt hbn) hl0 he).2
  have hother := h.sameBlocks_store hlive (dataPlace_lt hbn) hplace
    ((s.disk r.toNat).overlay (off % BSIZE) m src)
  have haddr : ∀ bn, (s.store r ((s.disk r.toNat).overlay (off % BSIZE) m src)).addr k bn =
      s.addr k bn := fun bn => holds_congr fun hi0 =>
    update_of_ne (hne NDIRECT (by decide) (dataPlace_ne_indirect _).symm
      (by rwa [held_indirect]) ∘ (by rw [held_indirect]; exact id)) _ _
  refine {
    inv := hinv, sb := rfl, devsw := rfl, others := fun _ _ => rfl, entry := rfl
    cur := fun i _ => by rw [hcur]
    blocks := hother
    keep := fun bn _ => haddr bn
    dinode := fun i _ hi => dinode_congr rfl
      (update_of_ne (hdata.ne_IBLOCK h.geom (h.inum_lt hi)).symm _ _)
    logged := prefix_append _ _, console := prefix_refl _
    size := rfl
    own := dinode_congr rfl (update_of_ne
      (hdata.ne_IBLOCK h.geom (h.inum_lt (h.coh.range k hk.1).2)).symm _ _)
    data := funext fun x => ?_
    rest := fun bn _ => haddr bn
    mapped := fun bn hbn' => ?_
    passed := fun bn hbn' => ?_ }
  · rw [data_eq hinv, haddr, overlaid, data_eq h, store_disk]
    by_cases hx : x / BSIZE = off / BSIZE
    · rw [hx, hr, update_self]
      have hmod := mod_lt x (show 0 < BSIZE by decide)
      have hd := div_add_mod x BSIZE
      have hd' := div_add_mod off BSIZE
      rw [hx] at hd
      split_ifs with hin
      · rw [Buf.byte_overlay_of_mem (by omega) (by omega) hmod]
        congr 1
        omega
      · exact Buf.byte_overlay_of_not (by omega)
    · have hin : ¬ (off ≤ x ∧ x < off + m) := by simp only [BSIZE] at *; omega
      rw [if_neg hin, update_of_ne]
      intro he
      have hx0 : s.addr k (x / BSIZE) ≠ 0 := UInt32.toNat_inj.1 he ▸ h0
      have hlt : x / BSIZE < MAXFILE := Nat.lt_of_not_le fun hle => hx0 (blockAddr_of_ge hle)
      exact hne _ (dataPlace_lt hlt) (fun he => hx (dataPlace_inj he)) hx0 he
  · rw [touched_block hm hb hbn, Finset.mem_singleton] at hbn'
    rw [haddr, hbn', hr]
    exact h0
  · rw [touched_block hm hb hbn, Finset.mem_singleton] at hbn'
    rw [haddr, hbn', hr, store_logged, drop_left]
    exact mem_singleton_self r

/-- A block of the file is mapped and stored. -/
theorem Mapped.stored {r : UInt32} (src : ℕ → UInt8) (hk : s.Loaded k)
    (hmap : Mapped k (off / BSIZE) s r s1)
    (hm : 0 < m) (hb : off % BSIZE + m ≤ BSIZE) (hbn : off / BSIZE < MAXFILE) (h0 : r ≠ 0) :
    Stored k src off m s (s1.store r ((s1.disk r.toNat).overlay (off % BSIZE) m src)) := by
  have hst := stored_block src hmap.inv (hmap.loaded hk) hm hb hbn hmap.addr h0
  refine { hmap.toQuiet.trans hst.toQuiet with
    data := by rw [hst.data, hmap.toGrows.data]
    rest := fun bn hbn' => ?_
    mapped := hst.mapped
    passed := fun bn hbn' => mem_drop_trans hmap.logged hst.logged (.inr (hst.passed bn hbn')) }
  rw [hst.rest bn hbn']
  rw [touched_block hm hb hbn, Finset.mem_singleton] at hbn'
  exact hmap.rest _ (fun he => hbn' (dataPlace_inj he)) (dataPlace_ne_indirect bn)

/-- There is nothing to write. -/
theorem StoreRun.nil (h : Inv s) : StoreRun k src off 0 s 0 s :=
  { Stored.refl h with
    le := le_rfl
    all := fun _ => by
      have h0 : need s k off 0 = 0 := needOf_eq_zero.2 fun bn hbn => by simp [touched_zero] at hbn
      exact ⟨rfl, by rw [h0, add_zero],
        fun ⟨bn, hbn, _⟩ => by simp [touched_zero] at hbn, fun _ => rfl⟩
    short := fun hlt => absurd hlt (lt_irrefl 0)
    few := le_add_right _ _ }

/-- The first block cannot be mapped. -/
theorem StoreRun.stop (hn : 0 < n) (hbn : off / BSIZE < MAXFILE)
    (hmap : Mapped k (off / BSIZE) s 0 s') : StoreRun k src off n s 0 s' := by
  have hmem : off / BSIZE ∈ touched off n := div_mem_touched le_rfl (by omega) (by
    simp only [MAXFILE, BSIZE] at *; omega)
  have hcost : bmapCost s k (off / BSIZE) ≤ need s k off n := by
    rw [← needOf_singleton]
    exact needOf_mono (Finset.singleton_subset_iff.2 hmem)
  obtain ⟨hran, hfree, hlt⟩ := hmap.full rfl
  refine { hmap.toQuiet with
    data := by rw [overlaid_zero, hmap.toGrows.data]
    rest := fun bn _ => ?_
    mapped := fun bn hbn => by simp [touched_zero] at hbn
    passed := fun bn hbn => by simp [touched_zero] at hbn
    le := zero_le _
    all := fun he => absurd he hn.ne
    short := fun _ => ⟨hran, hfree, by omega, hmap.addr⟩
    few := ?_ }
  · by_cases he : bn = off / BSIZE
    · subst he
      by_contra hne
      exact hne (hmap.keep _ fun h0 => hne (hmap.addr.trans h0.symm))
    · exact hmap.rest _ (fun hp => he (dataPlace_inj hp)) (dataPlace_ne_indirect bn)
  · have := hmap.few
    have := Finset.card_pos.2 ⟨_, hmem⟩
    omega

/-- One block is stored, and the write goes on with the next one. -/
theorem StoreRun.cons {r : UInt32} (hk : s.Loaded k) (hn : m + m' = n) (hm : 0 < m)
    (hb : off % BSIZE + m ≤ BSIZE) (hbn : off / BSIZE < MAXFILE)
    (hnext : off / BSIZE ∉ touched (off + m) m') (hmap : Mapped k (off / BSIZE) s r s1)
    (h0 : r ≠ 0) {m1 : ℕ} (hrun : StoreRun k (fun i => src (m + i)) (off + m) m'
      (s1.store r ((s1.disk r.toNat).overlay (off % BSIZE) m src)) m1 s') :
    StoreRun k src off n s (m + m1) s' := by
  have hst := hmap.stored src hk hm hb hbn h0
  obtain ⟨hcons, hfree, hind⟩ := hmap.found h0
  have hfree' : ∀ blk, (s1.store r blk).free = s1.free := fun blk => by
    have hlive := hmap.inv.live (hmap.loaded hk)
    have hd := hmap.inv.isData hlive (dataPlace_lt hbn)
    rw [hmap.inv.coh.cur_loaded (hmap.loaded hk)] at hd
    have hr : holds s1.disk (s1.icache k).toDinode (dataPlace (off / BSIZE)) = r := hmap.addr
    rw [hr] at hd
    exact free_store ((hd h0).1.ne_bitmapBlock hmap.inv.geom.bits)
  generalize hs2 : s1.store r ((s1.disk r.toNat).overlay (off % BSIZE) m src) = s2 at *
  have hind2 : s2.indirect k = s1.indirect k := by rw [← hs2]; rfl
  have hcons2 : s2.console = s.console := by rw [← hs2]; exact hcons
  have hlog2 : s2.logged.length = s1.logged.length + 1 := by
    rw [← hs2, store_logged, length_append]; rfl
  have hfree2 : s2.free = s1.free := by rw [← hs2, hfree']
  have hT : touched off n = touched off m ∪ touched (off + m) m' := by rw [← hn, touched_add]
  have hT1 := touched_block hm hb hbn
  have hbig : (∃ bn ∈ touched off m, NDIRECT ≤ bn) ↔ NDIRECT ≤ off / BSIZE := by
    rw [hT1]; simp only [Finset.mem_singleton, exists_eq_left]
  have hi : (∃ bn ∈ touched off m, NDIRECT ≤ bn) → s2.indirect k ≠ 0 := fun hc => by
    rw [hind2]; exact hind (hbig.1 hc)
  have hi' : (¬ ∃ bn ∈ touched off m, NDIRECT ≤ bn) → s2.indirect k = s.indirect k := fun hc => by
    rw [hind2]; exact hmap.indirect (.inr (not_le.1 (mt hbig.2 hc)))
  have hneed : need s k off n = bmapCost s k (off / BSIZE) + need s2 k (off + m) m' := by
    rw [need, hT, needOf_union hst.mapped hst.rest hi hi', hT1, needOf_singleton, need]
  refine { hst.trans hrun.toStored with
    le := by have := hrun.le; omega
    all := fun he => ?_
    short := fun hlt => ?_
    few := ?_ }
  · obtain ⟨h1, h2, h3, h4⟩ := hrun.all (by omega)
    refine ⟨h1.trans hcons2, by omega, ?_, ?_⟩
    · rw [hT]
      rintro ⟨bn, hbn', hle⟩
      by_cases hex : ∃ bn ∈ touched (off + m) m', NDIRECT ≤ bn
      · exact h3 hex
      · rw [h4 hex]
        rcases mem_union.1 hbn' with hbn' | hbn'
        · exact hi ⟨bn, hbn', hle⟩
        · exact absurd ⟨bn, hbn', hle⟩ hex
    · rw [hT]
      intro hno
      rw [h4 fun ⟨bn, hbn', hle⟩ => hno ⟨bn, Finset.mem_union_right _ hbn', hle⟩,
        hi' fun ⟨bn, hbn', hle⟩ => hno ⟨bn, Finset.mem_union_left _ hbn', hle⟩]
  · obtain ⟨h1, h2, h3, h4⟩ := hrun.short (by omega)
    exact ⟨mem_drop_trans hst.console hrun.console (.inr h1), h2, by omega, by rwa [← add_assoc]⟩
  · have hcard : (touched off n).card = 1 + (touched (off + m) m').card := by
      rw [hT, hT1, Finset.singleton_union, Finset.card_insert_of_notMem hnext, add_comm]
    have := hrun.few
    have := hmap.few
    omega

/-- **The loop of `writei`.** -/
theorem wp_writeLoop (src : ℕ → UInt8) (h : Inv s) (hk : s.Loaded k) (tot : ℕ)
    (hmax : off + (n - tot) ≤ MAXFILE * BSIZE) :
    wp (writeLoop k src n tot off) E (fun off' s' => ∃ m, off' = off + m ∧
      StoreRun k (fun i => src (tot + i)) off (n - tot) s m s') s := by
  induction hd : n - tot using Nat.strong_induction_on generalizing s tot off with
  | _ d ih =>
    rw [writeLoop]
    split_ifs with ht
    · have hpos := chunk_pos off ht
      have hle := chunk_le_rest n tot off
      have hblk := chunk_le n tot off
      have hbn : off / BSIZE < MAXFILE := by simp only [MAXFILE, BSIZE] at *; omega
      rw [wp_bind]
      refine wp_mono (wp_bmap h hk hbn) fun r s1 hmap => ?_
      rw [wp_ite]
      refine ⟨fun hr => ?_, fun hr => ?_⟩
      · subst hr
        exact wp_pure.2 ⟨0, rfl, .stop (by omega) hbn hmap⟩
      · simp only [bread, logWrite, wp_bind, wp_get, wp_pure, wp_modify]
        have hst := hmap.stored (fun i => src (tot + i)) hk hpos hblk hbn hr
        refine wp_mono (ih _ (by omega) hst.inv (hst.loaded hk) _ (by omega) rfl) ?_
        rintro _ s' ⟨m', rfl, hrun⟩
        refine ⟨chunk n tot off + m', by omega, .cons hk
          (show chunk n tot off + (n - (tot + chunk n tot off)) = d by omega) hpos hblk hbn
            (div_notMem_touched n tot off) hmap hr ?_⟩
        simpa only [add_assoc] using hrun
    · obtain rfl : d = 0 := by omega
      exact wp_pure.2 ⟨0, rfl, .nil h⟩

/-- **What `writei` has done** when it returns a count: `m` of the `n` bytes at `off`
have been stored, and the inode has reached the disk if the file has grown. -/
structure Wrote (k : Slot) (src : ℕ → UInt8) (off n : ℕ) (s : State) (m : ℕ) (s' : State) : Prop
    extends Edits k s s' where
  le : m ≤ n
  data : s'.data k = overlaid (s.data k) src off m
  rest : ∀ bn ∉ touched off m, s'.addr k bn = s.addr k bn
  mapped : ∀ bn ∈ touched off m, s'.addr k bn ≠ 0
  passed : ∀ bn ∈ touched off m, s'.addr k bn ∈ s'.logged.drop s.logged.length
  size : (s'.icache k).size.toNat = max (s.icache k).size.toNat (off + m)
  own : s'.dinode (s.icache k).inum =
    if (s.icache k).size.toNat < off + m then (s'.icache k).toDinode
    else s.dinode (s.icache k).inum
  all : m = n → s'.console = s.console ∧ s.free = s'.free + need s k off n ∧
    ((∃ bn ∈ touched off n, NDIRECT ≤ bn) → s'.indirect k ≠ 0) ∧
    ((¬ ∃ bn ∈ touched off n, NDIRECT ≤ bn) → s'.indirect k = s.indirect k)
  short : m < n → RanOut s s' ∧ s'.free = 0 ∧ s.free < need s k off n ∧
    s'.addr k ((off + m) / BSIZE) = 0
  few : s'.logged.length ≤ s.logged.length + 6 * (touched off n).card + 1

/-- The file has not grown. -/
theorem StoreRun.wrote (h : StoreRun k src off n s m s')
    (hsize : off + m ≤ (s.icache k).size.toNat) : Wrote k src off n s m s' :=
  { h with
    size := by rw [h.size, max_eq_left hsize]
    own := by rw [if_neg (by omega), h.own]
    few := by have := h.few; omega }

/-- The file has grown: the new size is set and the inode is stored. -/
theorem StoreRun.wrote_grown (hk : s.Loaded k) (h : StoreRun k src off n s m s1)
    (hsize : (s.icache k).size.toNat < off + m) (hmax : off + n ≤ MAXFILE * BSIZE)
    (hs' : s' = (s1.setInode k fun ip => { ip with size := ofNat (off + m) }).putInode
      (s1.icache k).inum { (s1.icache k).toDinode with size := ofNat (off + m) }) :
    Wrote k src off n s m s' := by
  have hk1 := h.loaded hk
  obtain ⟨hinv, hcur, hdata, hused, hino⟩ := h.inv.setFields_iupdate (k := k)
    (f := fun ip => { ip with size := ofNat (off + m) }) hk1
    (by rw [State.Loaded, setInode_self]; exact hk1) rfl rfl rfl rfl hs'
  have hn : (ofNat (off + m)).toNat = off + m := by
    rw [toNat_ofNat', mod_eq_of_lt]
    have := h.le
    simp only [MAXFILE, BSIZE] at hmax
    omega
  have hin := (h.inv.coh.range k hk1.1).2
  have hsb : s'.sb = s1.sb := by rw [hs']; rfl
  have hdev : s'.devsw = s1.devsw := by rw [hs']; rfl
  have hcons : s'.console = s1.console := by rw [hs']; rfl
  have hlog : s'.logged = s1.logged ++ [IBLOCK (s1.icache k).inum s1.sb] := by rw [hs']; rfl
  have hic : s'.icache = update s1.icache k
      { s1.icache k with size := ofNat (off + m) } := by rw [hs']; rfl
  have hself : s'.icache k = { s1.icache k with size := ofNat (off + m) } := by
    rw [hic, update_self]
  have hfree : s'.free = s1.free := free_congr hsb hused
  clear hs'
  have hsame : ∀ i, Live s1.sb s1.cur i → SameBlocks s1.disk s'.disk (s1.cur i) :=
    h.inv.sameBlocks fun b hb _ => hdata b hb
  have hown : SameBlocks s1.disk s'.disk (s1.icache k).toDinode := by
    rw [← h.inv.coh.cur_loaded hk1]
    exact hsame _ (h.inv.live hk1)
  have hpage : ∀ bn, SamePage s1.disk s'.disk (s1.icache k).toDinode (s'.icache k).toDinode bn :=
    fun bn => hself ▸ hown.samePage bn
  have haddr : ∀ bn, s'.addr k bn = s1.addr k bn := fun bn => by
    rw [addr, hself]
    exact holds_congr hown.indirect
  have hed : Edits k s1 s' := {
    inv := hinv, sb := hsb, devsw := hdev
    others := fun l hl => by rw [hic, update_of_ne hl]
    entry := by rw [hself]
    cur := fun i hi => by rw [hcur, update_of_ne hi]
    blocks := fun i _ hl => hsame i hl
    keep := fun bn _ => haddr bn
    dinode := fun i hi hn => by rw [hino i hn, if_neg hi]
    logged := hlog ▸ prefix_append _ _
    console := hcons ▸ prefix_refl _ }
  have hind : s'.indirect k = s1.indirect k := by rw [indirect, hself]; rfl
  refine { h.toEdits.trans hed with
    le := h.le
    data := by rw [← h.data]; exact content_eq hpage
    rest := fun bn hbn => (haddr bn).trans (h.rest bn hbn)
    mapped := fun bn hbn => haddr bn ▸ h.mapped bn hbn
    passed := fun bn hbn => mem_drop_trans h.logged hed.logged (.inl (haddr bn ▸ h.passed bn hbn))
    size := ?_
    own := ?_
    all := ?_
    short := ?_
    few := ?_ }
  · rw [hself, hn, max_eq_right hsize.le]
  · rw [if_pos hsize, ← h.inum, hino _ hin, if_pos rfl, hself]
  · rw [hcons, hfree, hind]; exact h.all
  · rw [RanOut, hcons, hfree, haddr]; exact h.short
  · rw [hlog, length_append]; exact Nat.add_le_add_right h.few 1

/-- **What `writei` does** on a file that is not a device. -/
theorem wp_writei (h : Inv s) (hk : s.Loaded k) (hty : (s.icache k).type ≠ T_DEV)
    {off n : UInt32} {Q : ℤ → State → Prop}
    (herr : (s.icache k).size.toNat < off.toNat ∨ 2 ^ 32 ≤ off.toNat + n.toNat ∨
      MAXFILE * BSIZE < off.toNat + n.toNat → Q (-1) s)
    (hrun : ∀ m s', off.toNat ≤ (s.icache k).size.toNat →
      off.toNat + n.toNat ≤ MAXFILE * BSIZE →
      Wrote k src off.toNat n.toNat s m s' → Q n.toNat s') :
    wp (writei k src off n) E Q s := by
  unfold writei
  rw [wp_bind, wp_get]
  simp only [if_neg hty]
  split_ifs with h1 h2
  · exact wp_pure.2 (herr (h1.imp lt_iff_toNat_lt.1 fun h => .inl (add_lt_iff.1 h)))
  · rw [not_or, add_lt_iff, lt_iff_toNat_lt, not_lt, not_le] at h1
    rw [UInt32.lt_iff_toNat_lt, UInt32.toNat_add, mod_eq_of_lt h1.2] at h2
    exact wp_pure.2 (herr (.inr (.inr h2)))
  · rw [not_or, add_lt_iff, lt_iff_toNat_lt, not_lt, not_le] at h1
    rw [UInt32.lt_iff_toNat_lt, UInt32.toNat_add, mod_eq_of_lt h1.2, not_lt] at h2
    have hmax : off.toNat + n.toNat ≤ MAXFILE * BSIZE := h2
    rw [wp_bind]
    refine wp_mono (wp_writeLoop src h hk 0 hmax) ?_
    rintro _ s1 ⟨m, rfl, hrun1⟩
    simp only [zero_add, Nat.sub_zero] at hrun1
    have hint : toInt n = n.toNat := toInt_eq (by simp only [MAXFILE, BSIZE] at hmax; omega)
    simp only [getInode, wp_bind, wp_get, wp_pure, hrun1.size]
    rw [wp_ite]
    refine ⟨fun hc => ?_, fun hc => ?_⟩
    · simp only [setInode, iupdate, getInode, wp_bind, wp_modify, wp_get, wp_pure, wp_storeDinode,
        setInode_self, hint]
      exact hrun m _ h1.1 hmax (hrun1.wrote_grown hk hc.2 hmax rfl)
    · rw [wp_pure, hint]
      refine hrun m _ h1.1 hmax (hrun1.wrote ?_)
      rw [lt_iff_toNat_lt] at hc
      have := hrun1.le
      have h0 : (0 : UInt32).toNat = 0 := rfl
      omega

end Write

end Xv6.Fs
