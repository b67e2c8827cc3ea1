/-
# The blocks of a file

`bmap` of `fs.c`: block `bn` of a file, allocated on demand.  The block numbers of
the file only grow (`Grows`): a block that is mapped stays where it is, a new one
is zeroed, so no file changes a byte, and everything else about the cache entry
stays.  `wp_bmap` says what one call does, on all its paths, including those
where the first, the second or both calls of `balloc` fail: it returns the block
exactly when enough blocks are free (`bmapCost`), and on failure there is none left.
-/

import Xv6.Fs.Invariant

namespace Xv6.Fs

open Finset Function Lib List State

/-- The number of free blocks. -/
def State.free (s : State) : ℕ := (freeBlocks s.sb s.disk).card

/-- Place `l` of the block numbers of the inode in entry `k`. -/
def State.held (s : State) (k : Slot) (l : ℕ) : UInt32 := holds s.disk (s.icache k).toDinode l

/-- The block that holds block `bn` of the file in entry `k`. -/
def State.addr (s : State) (k : Slot) (bn : ℕ) : UInt32 :=
  blockAddr s.disk (s.icache k).toDinode bn

/-- The address of the indirect block of the inode in entry `k`. -/
def State.indirect (s : State) (k : Slot) : UInt32 := (s.icache k).addrs (Fin.last NDIRECT)

/-- `balloc` ran out of blocks between `s` and `s'`, and said so. -/
def RanOut (s s' : State) : Prop := "balloc: out of blocks" ∈ s'.console.drop s.console.length

/-- Between `s` and `s'` only the file in entry `k` was changed: its blocks, where
a block that is mapped stays where it is, and its size. -/
structure Edits (k : Slot) (s s' : State) : Prop where
  inv : Inv s'
  sb : s'.sb = s.sb
  devsw : s'.devsw = s.devsw
  others : ∀ l ≠ k, s'.icache l = s.icache l
  entry : s'.icache k =
    { s.icache k with addrs := (s'.icache k).addrs, size := (s'.icache k).size }
  cur : ∀ i ≠ (s.icache k).inum, s'.cur i = s.cur i
  blocks : ∀ i ≠ (s.icache k).inum, Live s.sb s.cur i → SameBlocks s.disk s'.disk (s.cur i)
  keep : ∀ bn, s.addr k bn ≠ 0 → s'.addr k bn = s.addr k bn
  dinode : ∀ i ≠ (s.icache k).inum, i.toNat < s.sb.ninodes.toNat → s'.dinode i = s.dinode i
  logged : s.logged <+: s'.logged
  console : s.console <+: s'.console

/-- The change has not reached the inode on the disk, and the size is as before. -/
structure Quiet (k : Slot) (s s' : State) : Prop extends Edits k s s' where
  size : (s'.icache k).size = (s.icache k).size
  own : s'.dinode (s.icache k).inum = s.dinode (s.icache k).inum

/-- Zeroed blocks were added to the file in entry `k`. -/
structure Grows (k : Slot) (s s' : State) : Prop extends Quiet k s s' where
  pages : ∀ bn, SamePage s.disk s'.disk (s.icache k).toDinode (s'.icache k).toDinode bn

namespace Edits

variable {k : Slot} {s s' s'' : State}

variable (h : Edits k s s')

include h

theorem inum : (s'.icache k).inum = (s.icache k).inum := by rw [h.entry]

theorem loaded (hk : s.Loaded k) : s'.Loaded k := by
  rw [State.Loaded, h.entry]; exact hk

theorem type_eq : (s'.icache k).type = (s.icache k).type := by rw [h.entry]

theorem live {i : UInt32} (hi : i ≠ (s.icache k).inum)
    (hl : Live s.sb s.cur i) : Live s'.sb s'.cur i := by
  rw [h.sb]
  exact ⟨hl.1, by rw [h.cur i hi]; exact hl.2⟩

theorem trans (h' : Edits k s' s'') : Edits k s s'' where
  inv := h'.inv
  sb := h'.sb.trans h.sb
  devsw := h'.devsw.trans h.devsw
  others l hl := (h'.others l hl).trans (h.others l hl)
  entry := by rw [h'.entry, h.entry]
  cur i hi := (h'.cur i (h.inum ▸ hi)).trans (h.cur i hi)
  blocks i hi hl := by
    have := h'.blocks i (h.inum ▸ hi) (h.live hi hl)
    rw [h.cur i hi] at this
    exact (h.blocks i hi hl).trans this
  keep bn h0 := by
    have := h.keep bn h0
    rw [h'.keep bn (this ▸ h0), this]
  dinode i hi hn := (h'.dinode i (h.inum ▸ hi) (h.sb ▸ hn)).trans (h.dinode i hi hn)
  logged := h.logged.trans h'.logged
  console := h.console.trans h'.console

/-- **The other files do not change.** -/
theorem content {i : UInt32} (hi : i ≠ (s.icache k).inum)
    (hl : Live s.sb s.cur i) : content s'.disk (s'.cur i) = content s.disk (s.cur i) := by
  rw [h.cur i hi, (h.blocks i hi hl).content]

end Edits

theorem Quiet.trans {k : Slot} {s s' s'' : State} (h : Quiet k s s') (h' : Quiet k s' s'') :
    Quiet k s s'' :=
  { h.toEdits.trans h'.toEdits with
    size := h'.size.trans h.size
    own := by rw [← h.own, ← h.inum, h'.own] }

namespace Grows

variable {k : Slot} {s s' s'' : State}

theorem trans (h : Grows k s s') (h' : Grows k s' s'') : Grows k s s'' :=
  { h.toQuiet.trans h'.toQuiet with pages := fun bn => (h.pages bn).trans (h'.pages bn) }

/-- A change of the disk outside the file system's own structures. -/
theorem of_disk (h : Inv s') (hsb : s'.sb = s.sb) (hic : s'.icache = s.icache)
    (hdev : s'.devsw = s.devsw) (hD : s'.disk = s.disk) (hcur : s'.cur = s.cur)
    (hlog : s.logged <+: s'.logged) (hcons : s.console <+: s'.console) : Grows k s s' where
  inv := h
  sb := hsb
  devsw := hdev
  others _ _ := by rw [hic]
  entry := by rw [hic]
  cur _ _ := by rw [hcur]
  blocks _ _ _ _ _ _ := by rw [hD]
  keep _ _ := by rw [addr, addr, hD, hic]
  dinode _ _ _ := dinode_congr hsb (by rw [hD])
  logged := hlog
  console := hcons
  size := by rw [hic]
  own := dinode_congr hsb (by rw [hD])
  pages _ := by rw [hD, hic]; exact .refl

theorem refl (h : Inv s) : Grows k s s :=
  of_disk h rfl rfl rfl rfl rfl (prefix_refl _) (prefix_refl _)

theorem print (h : Inv s) (msg : String) : Grows k s (s.print msg) :=
  of_disk (h.print msg).1 rfl rfl rfl rfl (h.print msg).2 (prefix_refl _)
    (prefix_append _ _)

theorem store_same (h : Inv s) (b : UInt32) : Grows k s (s.store b (s.disk b.toNat)) :=
  of_disk (h.store_same b).1 rfl rfl rfl (update_eq_self _ _) (h.store_same b).2
    (prefix_append _ _) (prefix_refl _)

end Grows

/-- A file that gets a zeroed block keeps the blocks it has. -/
theorem keep_of_samePage {D D' : Disk} {d d' : Dinode} {bn : ℕ} (h : SamePage D D' d d' bn)
    (h0 : blockAddr D d bn ≠ 0) : blockAddr D' d' bn = blockAddr D d bn := by
  rcases h with h | h
  · exact h.1
  · exact absurd h.1 h0

section Steps

variable {s : State} {k : Slot} {b : UInt32} {j : ℕ}

/-- The allocator takes one block. -/
theorem free_allocated (h : Inv s) (hb : b.toNat ∈ freeBlocks s.sb s.disk) :
    s.free = (s.allocated b).free + 1 := by
  obtain ⟨⟨hb1, hb2⟩, hbit⟩ := mem_freeBlocks.1 hb
  have hdata := h.fmt.isData_of_usedBit hb1 hb2 hbit
  have hfree : freeBlocks s.sb (s.allocated b).disk = (freeBlocks s.sb s.disk).erase b.toNat :=
    freeBlocks_taken h.geom.bits hdata
  rw [free, free, allocated_sb, hfree, card_erase_of_mem hb]
  have := card_pos.2 ⟨_, hb⟩
  omega

/-- Allocating a block leaves the inodes on the disk alone. -/
theorem dinode_allocated (h : Inv s) (hb : b.toNat ∈ freeBlocks s.sb s.disk) {i : UInt32}
    (hi : i.toNat < s.sb.ninodes.toNat) : (s.allocated b).dinode i = s.dinode i := by
  obtain ⟨⟨hb1, hb2⟩, hbit⟩ := mem_freeBlocks.1 hb
  have hdata := h.fmt.isData_of_usedBit hb1 hb2 hbit
  refine dinode_congr rfl ?_
  rw [allocated_disk, update_of_ne (hdata.ne_IBLOCK h.geom (h.inum_lt hi)).symm,
    setUsed_of_ne (h.geom.IBLOCK_ne_bitmapBlock (h.inum_lt hi))]

/-- **A direct block or the indirect block is added** to the file in entry `k`. -/
theorem grows_newAddr (h : Inv s) (hk : s.Loaded k) {i : Fin (NDIRECT + 1)}
    (h0 : (s.icache k).addrs i = 0) (hb : b.toNat ∈ freeBlocks s.sb s.disk) :
    Grows k s ((s.allocated b).setInode k (·.setAddr i b)) ∧
      ∀ l, ((s.allocated b).setInode k (·.setAddr i b)).held k l =
        if l = i then b else s.held k l := by
  obtain ⟨hinv, hcur, hfresh, hsame⟩ := h.allocated hb
  obtain ⟨hinv', hcur'⟩ := hinv.setAddr (k := k) hk h0 hfresh
  rw [hcur, allocated_icache] at hcur'
  have hc := h.coh.cur_loaded hk
  have hself : SameBlocks s.disk (s.allocated b).disk (s.icache k).toDinode :=
    hc ▸ hsame _ (h.live hk)
  have hheld : ∀ l, holds (s.allocated b).disk ((s.icache k).setAddr i b).toDinode l =
      if l = i then b else s.held k l := fun l => by
    rw [held, ← holds_congr hself.indirect]
    exact holds_setAddr h0 hfresh.zero l
  have hpages := samePage_insert (holds_addr.trans h0) hfresh.zero hheld fun l hl _ => hself l hl
  refine ⟨{
    inv := hinv', sb := rfl, devsw := rfl, others := fun l hl => setInode_of_ne hl
    entry := by rw [setInode_self, allocated_icache]; rfl
    cur := fun j hj => by rw [hcur', update_of_ne hj]
    blocks := fun j _ hl => hsame j hl
    keep := fun bn hbn => ?_
    dinode := fun j _ hj => dinode_allocated h hb hj
    own := dinode_allocated h hb (h.coh.range k hk.1).2
    size := by rw [setInode_self, allocated_icache]; rfl
    logged := prefix_append _ _, console := prefix_refl _
    pages := fun bn => ?_ }, fun l => ?_⟩
  · rw [addr, setInode_self, setInode_disk, allocated_icache]
    exact keep_of_samePage (hpages bn) hbn
  · rw [setInode_self, setInode_disk, allocated_icache]
    exact hpages bn
  · rw [held, setInode_self, setInode_disk, allocated_icache, hheld]

/-- **An entry of the indirect block is added** to the file in entry `k`. -/
theorem grows_newEntry (h : Inv s) (hk : s.Loaded k) (hj : j < NINDIRECT)
    (h0 : s.indirect k ≠ 0) (hfree : s.held k (13 + j) = 0)
    (hb : b.toNat ∈ freeBlocks s.sb s.disk) :
    Grows k s ((s.allocated b).store (s.indirect k)
        (((s.allocated b).disk (s.indirect k).toNat).putU32 (4 * j) b)) ∧
      ∀ l, ((s.allocated b).store (s.indirect k)
          (((s.allocated b).disk (s.indirect k).toNat).putU32 (4 * j) b)).held k l =
        if l = 13 + j then b else s.held k l := by
  obtain ⟨hinv, hcur, hfresh, hsame⟩ := h.allocated hb
  obtain ⟨hinv', hcur'⟩ :=
    hinv.store_entry (k := k) hk hj (show _ = s.indirect k from rfl) h0 hfresh
  have hlive := h.live hk
  have hc := h.coh.cur_loaded hk
  have hself : SameBlocks s.disk (s.allocated b).disk (s.icache k).toDinode := hc ▸ hsame _ hlive
  have hheld : ∀ l, holds ((s.allocated b).store (s.indirect k)
      (((s.allocated b).disk (s.indirect k).toNat).putU32 (4 * j) b)).disk
      (s.icache k).toDinode l = if l = 13 + j then b else s.held k l := fun l => by
    rw [held, ← holds_congr hself.indirect]
    exact holds_putEntry rfl h0 hj l
  have hlive' : Live (s.allocated b).sb (s.allocated b).cur (s.icache k).inum := hcur.symm ▸ hlive
  have hplace : holds (s.allocated b).disk ((s.allocated b).cur (s.icache k).inum) NDIRECT =
      s.indirect k := by rw [hcur, hc, holds_indirect]; rfl
  have hother := hinv.sameBlocks_store hlive' (show NDIRECT < NHELD by decide) hplace
    (((s.allocated b).disk (s.indirect k).toNat).putU32 (4 * j) b)
  have hind : b.toNat ≠ (s.indirect k).toNat := fun he =>
    hfresh.notHeld ⟨_, hlive', NDIRECT, by decide, hplace.trans (UInt32.toNat_inj.1 he).symm⟩
  have hdata := (hinv.isData hlive' (show NDIRECT < NHELD by decide) (hplace ▸ h0)).1
  rw [hplace, allocated_sb] at hdata
  generalize ((s.allocated b).disk (s.indirect k).toNat).putU32 (4 * j) b = blk at *
  have hpages := fun bn => samePage_insert hfree
    (by rw [store_disk, update_of_ne hind, hfresh.zero]) hheld
    (fun l hl hln hl0 => by
      rw [store_disk, update_of_ne, hself l hl hl0]
      intro he
      rw [← hc] at he hl0
      rw [← hplace, hcur, holds_congr (hsame _ hlive).indirect] at he
      exact hln (h.held_inj hlive hlive hl (by decide) hl0 he).2) bn
  have hino : ∀ i : UInt32, i.toNat < s.sb.ninodes.toNat →
      ((s.allocated b).store (s.indirect k) blk).dinode i = s.dinode i := fun i hi => by
    rw [← dinode_allocated h hb hi]
    exact dinode_congr rfl (update_of_ne (hdata.ne_IBLOCK h.geom (h.inum_lt hi)).symm _ _)
  exact ⟨{
    inv := hinv', sb := rfl, devsw := rfl, others := fun _ _ => rfl, entry := rfl
    cur := fun i _ => by rw [hcur', hcur]
    blocks := fun i hi hl => (hsame i hl).trans (hcur ▸ hother i hi (hcur.symm ▸ hl))
    keep := fun bn hbn => keep_of_samePage (hpages bn) hbn
    dinode := fun i _ hi => hino i hi
    own := hino _ (h.coh.range k hk.1).2
    size := rfl
    logged := (prefix_append _ _).trans (prefix_append _ _)
    console := prefix_refl _
    pages := hpages }, hheld⟩

/-! ### `bmap` -/

/-- The blocks `bmap` has to allocate for block `bn` of the file. -/
def bmapCost (s : State) (k : Slot) (bn : ℕ) : ℕ :=
  (if s.addr k bn = 0 then 1 else 0) + if NDIRECT ≤ bn ∧ s.indirect k = 0 then 1 else 0

theorem bmap_direct {bn : ℕ} (h : bn < NDIRECT) :
    bmap k bn = addrOrAlloc k ⟨bn, Nat.lt_succ_of_lt h⟩ := by
  rw [bmap, dif_pos h]

theorem bmap_indirect (h : j < NINDIRECT) :
    bmap k (NDIRECT + j) = addrOrAlloc k (Fin.last NDIRECT) >>= fun ind => entryOrAlloc ind j := by
  rw [bmap, dif_neg (by omega)]
  simp only [Nat.add_sub_cancel_left, if_pos h]

/-- `s'` is `s` after `bmap` returned `r` for block `bn` of the file in entry `k`. -/
structure Mapped (k : Slot) (bn : ℕ) (s : State) (r : UInt32) (s' : State) : Prop
    extends Grows k s s' where
  addr : s'.addr k bn = r
  rest : ∀ l ≠ dataPlace bn, l ≠ NDIRECT → s'.held k l = s.held k l
  indirect : s.indirect k ≠ 0 ∨ bn < NDIRECT → s'.indirect k = s.indirect k
  same : s.addr k bn ≠ 0 → s' = s
  found : r ≠ 0 → s'.console = s.console ∧ s.free = s'.free + bmapCost s k bn ∧
    (NDIRECT ≤ bn → s'.indirect k ≠ 0)
  full : r = 0 → RanOut s s' ∧ s'.free = 0 ∧ s.free < bmapCost s k bn
  few : s'.logged.length ≤ s.logged.length + 5

theorem allocated_length : (s.allocated b).logged.length = s.logged.length + 2 :=
  length_append

theorem held_indirect : s.held k NDIRECT = s.indirect k := holds_indirect

theorem held_entry (h0 : s.indirect k ≠ 0) :
    s.held k (13 + j) = (s.disk (s.indirect k).toNat).getU32 (4 * j) := by
  rw [indirect] at h0
  rw [held, holds, dif_neg (by omega), if_neg h0, Nat.add_sub_cancel_left]
  rfl

/-- Without an indirect block there are no entries. -/
theorem held_eq_zero {l : ℕ} (h0 : s.indirect k = 0) (hl : NDIRECT < l) : s.held k l = 0 := by
  rw [indirect] at h0
  rw [held, holds, dif_neg (by simp only [NDIRECT] at hl; omega), if_pos h0]

theorem addr_indirect (hi : s.indirect k ≠ 0) :
    s.addr k (NDIRECT + j) = (s.disk (s.indirect k).toNat).getU32 (4 * j) := by
  rw [← held_entry hi, addr, blockAddr, dataPlace, if_neg (by omega), held,
    show NDIRECT + j + 1 = 13 + j by simp only [NDIRECT]; omega]

theorem ranOut_print : RanOut s (s.print "balloc: out of blocks") := by
  rw [RanOut, print, drop_left]
  exact mem_cons_self

/-- What was added to a list in one of two steps was added in both together. -/
theorem mem_drop_trans {α : Type} {l l1 l' : List α} {a : α} (h : l <+: l1) (h' : l1 <+: l')
    (ha : a ∈ l1.drop l.length ∨ a ∈ l'.drop l1.length) : a ∈ l'.drop l.length := by
  obtain ⟨u, rfl⟩ := h
  obtain ⟨v, rfl⟩ := h'
  rw [drop_left, drop_left] at ha
  rw [append_assoc, drop_left]
  exact mem_append.2 ha

theorem setInode_eq_self {f : Inode → Inode} (h : f (s.icache k) = s.icache k) :
    s.setInode k f = s := by
  rw [State.setInode, h, update_eq_self]

/-- The number of free blocks depends on the bits only. -/
theorem free_congr {s' : State} (hsb : s'.sb = s.sb) (h : s'.Used = s.Used) : s'.free = s.free := by
  rw [free, free, hsb, freeBlocks, freeBlocks]
  congr 1
  refine filter_congr fun c _ => ?_
  have := congrFun h c
  simp only [State.Used, hsb, eq_iff_iff] at this
  rw [Bool.eq_iff_iff.2 this]

/-- The free blocks after a block that is not a bitmap is stored. -/
theorem free_store {blk : Block} (h : ∀ g, b.toNat ≠ s.sb.bitmapBlock g) :
    (s.store b blk).free = s.free := free_congr rfl (used_store h)

theorem ne_zero_of_mem_freeBlocks (h : Inv s) (hb : b.toNat ∈ freeBlocks s.sb s.disk) : b ≠ 0 := by
  obtain ⟨⟨hb1, hb2⟩, hbit⟩ := mem_freeBlocks.1 hb
  have := h.two_le (h.fmt.isData_of_usedBit hb1 hb2 hbit)
  rintro rfl
  exact absurd this (by decide)

theorem mapped_refl (h : Inv s) {bn : ℕ} (h0 : s.addr k bn ≠ 0) : Mapped k bn s (s.addr k bn) s :=
  { Grows.refl h with
    addr := rfl
    rest := fun _ _ _ => rfl
    indirect := fun _ => rfl
    same := fun _ => rfl
    found := fun _ => by
      have hind : NDIRECT ≤ bn → s.indirect k ≠ 0 := fun hbn hi => by
        refine h0 (held_eq_zero hi ?_)
        rw [dataPlace, if_neg (by omega)]
        omega
      refine ⟨rfl, ?_, hind⟩
      rw [bmapCost, if_neg h0, if_neg fun hc => hind hc.1 hc.2]; rfl
    full := fun h => absurd h h0
    few := by omega }

theorem Inode.setAddr_self {ip : Inode} {i : Fin (NDIRECT + 1)} (h : ip.addrs i = 0) :
    ip.setAddr i 0 = ip := by
  rw [← h, Inode.setAddr, Dinode.setAddr, update_eq_self]

section

variable {E : Fail → Prop} {Q : UInt32 → State → Prop}

theorem wp_addrOrAlloc (h : Inv s) {i : Fin (NDIRECT + 1)}
    (hold : (s.icache k).addrs i ≠ 0 → Q ((s.icache k).addrs i) s)
    (hfull : (s.icache k).addrs i = 0 → s.free = 0 → Q 0 (s.print "balloc: out of blocks"))
    (hnew : (s.icache k).addrs i = 0 → ∀ b : UInt32, b.toNat ∈ freeBlocks s.sb s.disk →
      Q b ((s.allocated b).setInode k (·.setAddr i b))) :
    wp (addrOrAlloc k i) E Q s := by
  unfold addrOrAlloc getInode
  simp only [wp_bind, wp_get, wp_pure, wp_ite]
  refine ⟨fun h0 => wp_balloc h.fmt (fun hfree => ?_) fun b hb _ => ?_, hold⟩
  · simp only [setInode, wp_modify]
    rw [setInode_eq_self (Inode.setAddr_self h0)]
    exact hfull h0 (card_eq_zero.2 hfree)
  · simp only [setInode, wp_modify]
    exact hnew h0 b hb

theorem wp_entryOrAlloc (h : Inv s) {ind : UInt32} {j : ℕ}
    (hold : (s.disk ind.toNat).getU32 (4 * j) ≠ 0 → Q ((s.disk ind.toNat).getU32 (4 * j)) s)
    (hfull : (s.disk ind.toNat).getU32 (4 * j) = 0 → s.free = 0 →
      Q 0 ((s.print "balloc: out of blocks").store ind (s.disk ind.toNat)))
    (hnew : (s.disk ind.toNat).getU32 (4 * j) = 0 → ∀ b : UInt32,
      b.toNat ∈ freeBlocks s.sb s.disk → Q b ((s.allocated b).store ind
        (((s.allocated b).disk ind.toNat).putU32 (4 * j) b))) :
    wp (entryOrAlloc ind j) E Q s := by
  unfold entryOrAlloc bread
  simp only [wp_bind, wp_get, wp_pure, wp_ite]
  refine ⟨fun h0 => wp_balloc h.fmt (fun hfree => ?_) fun b hb _ => ?_, hold⟩
  · simp only [logWrite, wp_modify]
    have := hfull h0 (card_eq_zero.2 hfree)
    rwa [← Buf.putU32_getU32 (s.disk ind.toNat) (4 * j), h0] at this
  · simp only [logWrite, wp_modify]
    exact hnew h0 b hb

/-- The entry of the indirect block, once `bmap` has tried to get one. -/
theorem wp_entryOrAlloc_mapped (h : Inv s) (hk : s.Loaded k) {j : ℕ} (hj : j < NINDIRECT)
    (hind : s.indirect k = 0 → s.free = 0) :
    wp (entryOrAlloc (s.indirect k) j) E (fun r s' => Mapped k (NDIRECT + j) s r s' ∧
      s'.logged.length ≤ s.logged.length + 3) s := by
  have hplace : dataPlace (NDIRECT + j) = 13 + j := by
    rw [dataPlace, if_neg (by omega)]; simp only [NDIRECT]; omega
  have haddr : ∀ s : State, s.addr k (NDIRECT + j) = s.held k (13 + j) := fun s => by
    rw [addr, blockAddr, hplace]; rfl
  have hentry : (s.disk (s.indirect k).toNat).getU32 (4 * j) = s.held k (13 + j) := by
    by_cases h0 : s.indirect k = 0
    · rw [held_eq_zero h0 (by simp only [NDIRECT]; omega), h0]
      exact (congrArg (·.getU32 (4 * j)) h.fmt.boot).trans (Buf.getU32_zero _)
    · rw [held_entry h0]
  refine wp_entryOrAlloc h (fun h0 => ?_) (fun h0 hfree => ?_) fun h0 b hb => ?_
  · rw [hentry, ← haddr] at h0 ⊢
    exact ⟨mapped_refl h h0, by omega⟩
  · rw [hentry] at h0
    have hg := (Grows.print (k := k) h "balloc: out of blocks").trans
      (Grows.store_same (Grows.print (k := k) h _).inv (s.indirect k))
    have hD : ((s.print "balloc: out of blocks").store (s.indirect k)
      (s.disk (s.indirect k).toNat)).disk = s.disk := update_eq_self _ _
    have hheld : ∀ l, ((s.print "balloc: out of blocks").store (s.indirect k)
      (s.disk (s.indirect k).toNat)).held k l = s.held k l := fun l => by
        rw [held, hD]; rfl
    refine ⟨{ hg with
      addr := by rw [haddr, hheld, h0]
      rest := fun l _ _ => hheld l
      indirect := fun _ => rfl
      same := fun hs => absurd (haddr s ▸ h0) hs
      found := fun hr => absurd rfl hr
      full := fun _ => ⟨ranOut_print, ?_, ?_⟩
      few := ?_ }, ?_⟩
    · rw [free, hD]; exact hfree
    · rw [hfree, bmapCost, haddr, if_pos h0]; omega
    · rw [store_logged, length_append]; exact Nat.add_le_add_left (show 1 ≤ 5 by decide) _
    · rw [store_logged, length_append]; exact Nat.add_le_add_left (show 1 ≤ 3 by decide) _
  · rw [hentry] at h0
    have hi0 : s.indirect k ≠ 0 := fun hi =>
      absurd (hind hi) (card_pos.2 ⟨_, hb⟩).ne'
    obtain ⟨hg, hheld⟩ := grows_newEntry h hk hj hi0 h0 hb
    have hb0 := ne_zero_of_mem_freeBlocks h hb
    have hdata : IsData s.sb (s.indirect k).toNat := by
      have := (h.isData (h.live hk) (show NDIRECT < NHELD by decide))
      rw [h.coh.cur_loaded hk, holds_indirect] at this
      exact (this hi0).1
    have hfree : ∀ blk, ((s.allocated b).store (s.indirect k) blk).free = (s.allocated b).free :=
      fun blk => free_store (hdata.ne_bitmapBlock h.geom.bits)
    have hlog : ∀ blk, ((s.allocated b).store (s.indirect k) blk).logged.length =
        s.logged.length + 3 := fun blk => by
      rw [store_logged, length_append, allocated_length]; rfl
    generalize ((s.allocated b).disk (s.indirect k).toNat).putU32 (4 * j) b = blk at *
    refine ⟨{ hg with
      addr := by rw [haddr, hheld, if_pos rfl]
      rest := fun l hl _ => by rw [hheld, if_neg (hplace ▸ hl)]
      indirect := fun _ => rfl
      same := fun hs => absurd (haddr s ▸ h0) hs
      found := fun _ => ⟨rfl, ?_, fun _ => hi0⟩
      full := fun hr => absurd hr hb0
      few := by rw [hlog]; omega }, (hlog blk).le⟩
    rw [hfree, free_allocated h hb, bmapCost, haddr, if_pos h0, if_neg fun hc => hi0 hc.2]

/-- A `bmap` that first tries to get the indirect block. -/
theorem Mapped.after {s s1 s' : State} {r : UInt32} {bn : ℕ}
    (hbn : NDIRECT ≤ bn) (h0 : s.indirect k = 0) (hg : Grows k s s1)
    (hheld : ∀ l ≠ NDIRECT, s1.held k l = s.held k l)
    (hlog : s1.logged.length ≤ s.logged.length + 2)
    (hgot : s1.console = s.console ∧ s1.indirect k ≠ 0 ∧ s.free = s1.free + 1 ∨
      RanOut s s1 ∧ s1.indirect k = 0 ∧ s1.free = 0 ∧ s.free = 0)
    (hm : Mapped k bn s1 r s' ∧ s'.logged.length ≤ s1.logged.length + 3) : Mapped k bn s r s' := by
  obtain ⟨hm, hfew⟩ := hm
  have hplace : NDIRECT < dataPlace bn := by rw [dataPlace, if_neg (by omega)]; omega
  have haddr : s.addr k bn = 0 := held_eq_zero h0 hplace
  have haddr1 : s1.addr k bn = 0 := (hheld _ hplace.ne').trans haddr
  have hcost : bmapCost s k bn = 2 := by rw [bmapCost, if_pos haddr, if_pos ⟨hbn, h0⟩]
  refine { hg.trans hm.toGrows with
    addr := hm.addr
    rest := fun l hl hl' => (hm.rest l hl hl').trans (hheld l hl')
    indirect := fun hc => (hc.resolve_right (by omega) h0).elim
    same := fun hs => absurd haddr hs
    found := fun hr => ?_
    full := fun hr => ?_
    few := by omega }
  · obtain ⟨hcons, hfree, hind⟩ := hm.found hr
    rw [hcost]
    rw [bmapCost, if_pos haddr1] at hfree
    rcases hgot with ⟨hc, hi, hf⟩ | ⟨-, hi, hf, -⟩
    · rw [if_neg fun hc => hi hc.2] at hfree
      exact ⟨hcons.trans hc, by omega, hind⟩
    · omega
  · obtain ⟨hran, hfree, hlt⟩ := hm.full hr
    rw [hcost]
    rw [bmapCost, if_pos haddr1] at hlt
    refine ⟨mem_drop_trans hg.console hm.console (.inr hran), hfree, ?_⟩
    rcases hgot with ⟨-, hi, hf⟩ | ⟨-, -, -, hf⟩
    · rw [if_neg fun hc => hi hc.2] at hlt
      omega
    · omega

/-- **What `bmap` does**, on every path. -/
theorem wp_bmap (h : Inv s) (hk : s.Loaded k) {bn : ℕ} (hbn : bn < MAXFILE) :
    wp (bmap k bn) E (Mapped k bn s) s := by
  unfold bmap
  split_ifs with hd
  · have hplace : dataPlace bn = bn := if_pos hd
    have haddr : ∀ s : State, s.addr k bn = s.held k bn := fun s => by
      rw [addr, blockAddr, hplace]; rfl
    have hheld : s.held k bn = (s.icache k).addrs ⟨bn, by omega⟩ := holds_addr (i := ⟨bn, by omega⟩)
    refine wp_addrOrAlloc h (fun h0 => ?_) (fun h0 hfree => ?_) fun h0 b hb => ?_
    · rw [← hheld, ← haddr] at h0 ⊢
      exact mapped_refl h h0
    · rw [← hheld, ← haddr] at h0
      exact { Grows.print h _ with
        addr := h0
        rest := fun _ _ _ => rfl
        indirect := fun _ => rfl
        same := fun hs => absurd h0 hs
        found := fun hr => absurd rfl hr
        full := fun _ => ⟨ranOut_print, hfree, by rw [hfree, bmapCost, if_pos h0]; omega⟩
        few := Nat.le_add_right _ _ }
    · obtain ⟨hg, hnew⟩ := grows_newAddr h hk h0 hb
      rw [← hheld, ← haddr] at h0
      have hind : ((s.allocated b).setInode k (·.setAddr ⟨bn, by omega⟩ b)).indirect k =
          s.indirect k := by
        rw [← held_indirect, hnew, if_neg (show NDIRECT ≠ bn by omega), held_indirect]
      exact { hg with
        addr := by rw [haddr, hnew, if_pos rfl]
        rest := fun l hl _ => by rw [hnew, if_neg fun hc => hl (hc.trans hplace.symm)]
        indirect := fun _ => hind
        same := fun hs => absurd h0 hs
        found := fun _ => ⟨rfl, by
          rw [free_allocated h hb, bmapCost, if_pos h0, if_neg fun hc => by omega]; rfl,
          fun hc => by omega⟩
        full := fun hr => absurd hr (ne_zero_of_mem_freeBlocks h hb)
        few := by
          show (s.allocated b).logged.length ≤ _
          rw [allocated_length]
          omega }
  · obtain ⟨j, rfl⟩ := Nat.exists_eq_add_of_le (Nat.le_of_not_lt hd)
    have hj : j < NINDIRECT := by simp only [MAXFILE, NDIRECT, NINDIRECT] at *; omega
    simp only [Nat.add_sub_cancel_left, if_pos hj, wp_bind]
    refine wp_addrOrAlloc h (fun h0 => ?_) (fun h0 hfree => ?_) fun h0 b hb => ?_
    · exact wp_mono (wp_entryOrAlloc_mapped h hk hj fun hc => absurd hc h0) fun _ _ h => h.1
    · have hg := Grows.print (k := k) h "balloc: out of blocks"
      have := wp_entryOrAlloc_mapped (E := E) hg.inv (hg.loaded hk) hj fun _ => hfree
      rw [show (s.print "balloc: out of blocks").indirect k = 0 from h0] at this
      exact wp_mono this fun r s' hm => .after (Nat.le_add_right _ _) h0 hg (fun _ _ => rfl)
        (Nat.le_add_right _ _) (.inr ⟨ranOut_print, h0, hfree, hfree⟩) hm
    · obtain ⟨hg, hnew⟩ := grows_newAddr h hk h0 hb
      have hind : ((s.allocated b).setInode k (·.setAddr (Fin.last NDIRECT) b)).indirect k = b := by
        rw [← held_indirect, hnew, if_pos (Fin.val_last NDIRECT).symm]
      have hb0 := ne_zero_of_mem_freeBlocks h hb
      have := wp_entryOrAlloc_mapped (E := E) hg.inv (hg.loaded hk) hj fun hc =>
        absurd (hind.symm.trans hc) hb0
      rw [hind] at this
      refine wp_mono this fun r s' hm => .after (Nat.le_add_right _ _) h0 hg
        (fun l hl => by rw [hnew, if_neg (show l ≠ Fin.last NDIRECT from hl)]) ?_
        (.inl ⟨rfl, by rwa [hind], free_allocated h hb⟩) hm
      exact (allocated_length (s := s)).le

end
end Steps
end Xv6.Fs
