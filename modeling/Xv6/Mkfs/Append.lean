/-
# `mkfs` writes the way the kernel does

The kernel would see the image being written as a file system whose bitmaps mark
the blocks below `freeblock` (`view`).  On that view `alloc_block` is the kernel's
`balloc` (`balloc_view`), the block that `iappend` looks up is the kernel's `bmap`
(`bmap_view`), its loop is the loop of `writei` (`writeLoop_view`), and `iappend` as
a whole is `writei` at the end of the file (`iappend_view`).  So what is known of
`writei` is known of `mkfs`.
-/

import Xv6.Mkfs.Image

namespace Xv6.Mkfs

open Fs Function Lib List Nat State Superblock UInt32

/-! ### The bitmaps -/

/-- A loop that sets some of the bits in a list. -/
theorem bit_foldl_setBit {p : ℕ → Prop} [DecidablePred p] {l : List ℕ} (hl : ∀ i ∈ l, i / 8 < BSIZE)
    (b : Block) (k : ℕ) : (l.foldl (fun b i => if p i then b.setBit i else b) b).bit k =
      (b.bit k || decide (k ∈ l ∧ p k)) := by
  induction l generalizing b with
  | nil => simp
  | cons i l ih =>
    have hi : i / 8 < BSIZE := hl i mem_cons_self
    rw [foldl_cons, ih fun j hj => hl j (mem_cons_of_mem _ hj)]
    by_cases hk : k = i
    · subst hk
      by_cases hp : p k
      · rw [if_pos hp, Buf.bit_setBit_self hi]
        simp [hp]
      · simp [hp]
    · have : (if p i then b.setBit i else b).bit k = b.bit k := by
        split
        · exact Buf.bit_setBit_of_ne hk
        · rfl
      rw [this]
      simp [hk]

/-- The bits of a bitmap: the metadata of the group and the blocks below `used`. -/
theorem bit_groupBitmap (used g k : ℕ) : (groupBitmap used g).bit k =
    decide (k < BPG ∧ (k < metaPerGroup ∨ globalStart + g * BPG + k < used)) := by
  have hmeta : ((range metaPerGroup).foldl Buf.setBit (Buf.zero : Block)) =
      (range metaPerGroup).foldl (fun b i => if True then b.setBit i else b) Buf.zero := by
    simp
  rw [groupBitmap, bit_foldl_setBit (p := fun i => globalStart + g * BPG + i < used), hmeta,
    bit_foldl_setBit (p := fun _ => True), Buf.bit_zero]
  · rw [Bool.eq_iff_iff]
    simp only [Bool.false_or, Bool.or_eq_true, decide_eq_true_eq, mem_range, mem_range'_1, and_true]
    simp only [BPG, IPG, metaPerGroup, IPB]
    omega
  · intro i hi
    have := mem_range.1 hi
    simp only [metaPerGroup, IPG, IPB, BSIZE] at *
    omega
  · intro i hi
    have := mem_range'_1.1 hi
    simp only [metaPerGroup, IPG, IPB, BSIZE, BPG] at *
    omega

/-- `b` is the bitmap block of a group. -/
def IsBitmap (b : ℕ) : Prop := globalStart ≤ b ∧ b < sb.limit ∧ (b - globalStart) % BPG = IPG / IPB

instance (b : ℕ) : Decidable (IsBitmap b) := inferInstanceAs (Decidable (_ ∧ _ ∧ _))

/-- The image with the bitmaps that mark the blocks below `used`. -/
def bitmapped (used : ℕ) (D : Disk) : Disk := fun b =>
  if IsBitmap b then groupBitmap used ((b - globalStart) / BPG) else D b

theorem sb_limit : sb.limit = 19832 := by decide

theorem sb_start : sb.start = 32 := by decide

theorem sb_bpg : sb.bpg.toNat = 200 := by decide

theorem sb_ngroups : sb.ngroups.toNat = 99 := by decide

theorem sb_inodeBlocks : sb.inodeBlocks = 4 := by decide

theorem sb_bitmapBlock (g : ℕ) : sb.bitmapBlock g = 36 + g * 200 := by
  rw [bitmapBlock, groupStart, sb_start, sb_bpg, sb_inodeBlocks]
  omega

variable {b : ℕ}

theorem isBitmap_iff : IsBitmap b ↔ ∃ g < 99, b = sb.bitmapBlock g := by
  simp only [IsBitmap, sb_limit, sb_bitmapBlock, globalStart, LOGSIZE, BPG, IPG, IPB]
  constructor
  · intro h
    exact ⟨(b - 32) / 200, by omega, by omega⟩
  · rintro ⟨g, hg, rfl⟩
    omega

variable {D : Disk}

theorem bitmapped_bitmapBlock {n g : ℕ} (hg : g < 99) :
    bitmapped n D (sb.bitmapBlock g) = groupBitmap n g := by
  rw [bitmapped, if_pos (isBitmap_iff.2 ⟨g, hg, rfl⟩), sb_bitmapBlock]
  congr 1
  simp only [globalStart, LOGSIZE, BPG]
  omega

theorem isData_iff : IsData sb b ↔ 32 ≤ b ∧ b < 19832 ∧ 4 < (b - 32) % 200 := by
  rw [IsData, sb_start, sb_limit, sb_bpg, sb_inodeBlocks]

theorem usedBit_bitmapped {used : ℕ} (h1 : 32 ≤ b) (h2 : b < 19832) :
    usedBit sb (bitmapped used D) b = decide ((b - 32) % 200 < 5 ∨ b < used) := by
  rw [usedBit, sb_start, sb_bpg, bitmapped_bitmapBlock (by omega), bit_groupBitmap, Bool.eq_iff_iff]
  simp only [decide_eq_true_eq, BPG, IPG, metaPerGroup, IPB, globalStart, LOGSIZE]
  omega

theorem mem_freeBlocks_bitmapped {used : ℕ} :
    b ∈ freeBlocks sb (bitmapped used D) ↔ IsData sb b ∧ used ≤ b := by
  rw [mem_freeBlocks, sb_start, sb_limit, isData_iff]
  constructor
  · rintro ⟨h, hbit⟩
    rw [usedBit_bitmapped h.1 h.2, decide_eq_false_iff_not] at hbit
    omega
  · intro h
    rw [usedBit_bitmapped h.1.1 h.1.2.1, decide_eq_false_iff_not]
    omega

/-! ### The view -/

/-- The cache with inode `i` in its first entry. -/
def oneInode (i : UInt32) (din : Dinode) : Fs.Slot → Inode := fun k =>
  if k = 0 then
    { toDinode := din, dev := ROOTDEV, inum := i, ref := 1, locked := false, valid := true }
  else
    { toDinode := Dinode.zero, dev := 0, inum := 0, ref := 0, locked := false, valid := false }

/-- The image as the kernel would see it now. -/
def view (m : Image) (c : Fs.Slot → Inode) (l : List UInt32) : Fs.State :=
  ⟨bitmapped m.freeblock.toNat m.disk, sb, c, fun _ => ⟨none, none⟩, l, []⟩

/-- The image has its superblock, `freeblock` is a data block or past the end, the data blocks from
there on are zero, and `alloc_block` has returned different data blocks below it. -/
structure Sound (m : Image) : Prop where
  super : m.disk 1 = sb.toBlock
  boot : m.disk 0 = Buf.zero
  ptr : 37 ≤ m.freeblock.toNat ∧ m.freeblock.toNat ≤ 19837 ∧ 4 < (m.freeblock.toNat - 32) % 200
  zero : ∀ b, IsData sb b → m.freeblock.toNat ≤ b → m.disk b = Buf.zero
  got : ∀ b ∈ m.got, IsData sb b.toNat ∧ b.toNat < m.freeblock.toNat
  nodup : m.got.Nodup

section View

variable {m : Image} {c : Fs.Slot → Inode} {l : List UInt32} {b : ℕ}

theorem not_isBitmap_of_isData (h : IsData sb b) : ¬ IsBitmap b := fun hb => by
  obtain ⟨g, -, rfl⟩ := isBitmap_iff.1 hb
  exact h.ne_bitmapBlock groupGeom_sb.bits g rfl

theorem bitmapped_of_isData {n : ℕ} {D : Disk} (h : IsData sb b) : bitmapped n D b = D b :=
  if_neg (not_isBitmap_of_isData h)

/-- A store outside the bitmaps. -/
theorem bitmapped_update {used : ℕ} {D : Disk} (h : ¬ IsBitmap b) (blk : Block) :
    bitmapped used (update D b blk) = update (bitmapped used D) b blk := by
  funext x
  by_cases hx : x = b
  · rw [hx, update_self, bitmapped, if_neg h, update_self]
  · rw [update_of_ne hx]
    simp only [bitmapped, update_of_ne hx]

theorem formatted_view (h : Sound m) : Formatted (view m c l).sb (view m c l).disk where
  geom := geometry_mkfs
  super := by
    change ofBlock (bitmapped m.freeblock.toNat m.disk 1) = sb
    rw [bitmapped, if_neg (by decide), h.super, ofBlock_toBlock]
  boot := by
    change bitmapped m.freeblock.toNat m.disk 0 = _
    rw [bitmapped, if_neg (by decide), h.boot]
  metaBits g hg k hk := by
    change (bitmapped m.freeblock.toNat m.disk (sb.bitmapBlock g)).bit k = true
    have hg' : g < 99 := sb_ngroups ▸ hg
    have hk' : k ≤ 4 := sb_inodeBlocks ▸ hk
    rw [bitmapped_bitmapBlock hg', bit_groupBitmap, decide_eq_true_eq]
    simp only [BPG, IPG, metaPerGroup, IPB]
    omega

/-- The block after `b`. -/
def nextBlock (b : UInt32) : UInt32 :=
  if (b + 1 - UInt32.ofNat globalStart) % UInt32.ofNat BPG = 0 then
    b + 1 + UInt32.ofNat metaPerGroup
  else b + 1

/-- The image after `alloc_block`. -/
def Image.next (m : Image) : Image :=
  { m with freeblock := nextBlock m.freeblock, got := m.got ++ [m.freeblock] }

theorem allocBlock_eq (m : Image) : allocBlock m = .ok (m.freeblock, m.next) := rfl

theorem nextBlock_toNat {b : UInt32} (h1 : 37 ≤ b.toNat) (h2 : b.toNat < 19832) :
    (nextBlock b).toNat =
      if (b.toNat + 1 - 32) % 200 = 0 then b.toNat + 6 else b.toNat + 1 := by
  have hone : (b + 1).toNat = b.toNat + 1 := by
    rw [UInt32.toNat_add, show (1 : UInt32).toNat = 1 from rfl]
    omega
  have hrel : ((b + 1 - 32) % 200 : UInt32).toNat = (b.toNat + 1 - 32) % 200 := by
    rw [UInt32.toNat_mod, UInt32.toNat_sub_of_le _ _ (UInt32.le_iff_toNat_le.2 ?_), hone]
    · rfl
    · rw [hone, show (32 : UInt32).toNat = 32 from rfl]
      omega
  have hfive : (b + 1 + 5).toNat = b.toNat + 6 := by
    rw [UInt32.toNat_add, hone, show (5 : UInt32).toNat = 5 from rfl]
    omega
  change (if (b + 1 - 32) % 200 = 0 then b + 1 + 5 else b + 1).toNat = _
  rw [apply_ite toNat, hone, hfive]
  refine if_congr ?_ rfl rfl
  rw [← UInt32.toNat_inj, hrel]
  rfl

variable (h : Sound m) (hlt : m.freeblock.toNat < 19832)

include h hlt

/-- `freeblock` is a data block as long as it is inside the groups. -/
theorem Sound.isData : IsData sb m.freeblock.toNat := by
  have := h.ptr
  exact isData_iff.2 (by omega)

theorem Sound.next : Sound m.next where
  super := h.super
  boot := h.boot
  ptr := by
    have := h.ptr
    change _ ≤ (nextBlock m.freeblock).toNat ∧ (nextBlock m.freeblock).toNat ≤ _ ∧
      _ < ((nextBlock m.freeblock).toNat - 32) % 200
    rw [nextBlock_toNat this.1 hlt]
    split_ifs <;> omega
  zero b hb hle := by
    have := h.ptr
    refine h.zero b hb ?_
    change (nextBlock m.freeblock).toNat ≤ b at hle
    rw [nextBlock_toNat this.1 hlt] at hle
    split_ifs at hle <;> omega
  got b hb := by
    have hptr := h.ptr
    have hnext := nextBlock_toNat hptr.1 hlt
    have hlater : m.freeblock.toNat < (nextBlock m.freeblock).toNat := by
      rw [hnext]
      split_ifs <;> omega
    rcases mem_append.1 hb with hb | hb
    · exact ⟨(h.got b hb).1, (h.got b hb).2.trans hlater⟩
    · rw [mem_singleton.1 hb]
      exact ⟨h.isData hlt, hlater⟩
  nodup := by
    refine nodup_append.2 ⟨h.nodup, nodup_singleton _, fun b hb c hc => ?_⟩
    rw [mem_singleton.1 hc]
    rintro rfl
    exact absurd (h.got _ hb).2 (lt_irrefl _)

/-- Marking `freeblock` as used moves the pointer. -/
theorem setUsed_bitmapped :
    setUsed sb (bitmapped m.freeblock.toNat m.disk) m.freeblock.toNat true =
      bitmapped (nextBlock m.freeblock).toNat m.disk := by
  have hptr := h.ptr
  funext x
  rw [setUsed, sb_start, sb_bpg, if_pos rfl]
  have hnext := nextBlock_toNat hptr.1 hlt
  by_cases hx : IsBitmap x
  · obtain ⟨g, hg, rfl⟩ := isBitmap_iff.1 hx
    rw [bitmapped_bitmapBlock (D := m.disk) (n := (nextBlock m.freeblock).toNat) hg]
    by_cases hgx : g = (m.freeblock.toNat - 32) / 200
    · subst hgx
      rw [update_self, bitmapped_bitmapBlock hg]
      refine Buf.ext_bit fun k => ?_
      by_cases hk : k = (m.freeblock.toNat - 32) % 200
      · rw [hk, Buf.bit_setBit_self (by simp only [BSIZE]; omega), bit_groupBitmap, hnext, eq_comm,
          decide_eq_true_eq]
        simp only [BPG, IPG, metaPerGroup, IPB, globalStart, LOGSIZE]
        split_ifs <;> omega
      · rw [Buf.bit_setBit_of_ne hk, bit_groupBitmap, bit_groupBitmap, hnext, decide_eq_decide]
        simp only [BPG, IPG, metaPerGroup, IPB, globalStart, LOGSIZE]
        split_ifs <;> omega
    · rw [update_of_ne (fun he => hgx (by rw [sb_bitmapBlock, sb_bitmapBlock] at he; omega)),
        bitmapped_bitmapBlock hg]
      refine Buf.ext_bit fun k => ?_
      rw [bit_groupBitmap, bit_groupBitmap, hnext, decide_eq_decide]
      simp only [BPG, IPG, metaPerGroup, IPB, globalStart, LOGSIZE]
      split_ifs <;> omega
  · have hne : x ≠ sb.bitmapBlock ((m.freeblock.toNat - 32) / 200) := fun he =>
      hx (isBitmap_iff.2 ⟨_, by omega, he⟩)
    rw [update_of_ne hne, bitmapped, bitmapped, if_neg hx, if_neg hx]

/-- The kernel's view after `alloc_block`. -/
theorem allocated_view :
    (view m c l).allocated m.freeblock =
      view m.next c (l ++ [BBLOCK m.freeblock sb, m.freeblock]) := by
  have hdisk : update (setUsed sb (bitmapped m.freeblock.toNat m.disk)
      m.freeblock.toNat true) m.freeblock.toNat Buf.zero =
      bitmapped (nextBlock m.freeblock).toNat m.disk := by
    rw [setUsed_bitmapped h hlt]
    refine update_eq_self_iff.2 ?_
    rw [bitmapped_of_isData (h.isData hlt), h.zero _ (h.isData hlt) le_rfl]
  unfold allocated
  dsimp only [view]
  rw [hdisk]
  rfl

/-- **`alloc_block` is `balloc`** on the kernel's view. -/
theorem balloc_view :
    Fs.balloc (view m c l) =
      .ok (m.freeblock, view m.next c (l ++ [BBLOCK m.freeblock sb, m.freeblock])) := by
  have hmem : m.freeblock.toNat ∈ freeBlocks sb (bitmapped m.freeblock.toNat m.disk) :=
    mem_freeBlocks_bitmapped.2 ⟨h.isData hlt, le_rfl⟩
  have hwp : wp Fs.balloc (fun _ => False) (fun b s' => b = m.freeblock ∧
      s' = view m.next c (l ++ [BBLOCK m.freeblock sb, m.freeblock])) (view m c l) := by
    refine wp_balloc (formatted_view h) (fun hempty => ?_) fun b hb hmin => ?_
    · exact absurd (hempty ▸ hmem) (Finset.notMem_empty _)
    · have hle := (mem_freeBlocks_bitmapped.1 hb).2
      obtain rfl : b = m.freeblock := UInt32.toNat_inj.1 ((hmin _ hmem).antisymm hle)
      exact ⟨rfl, allocated_view h hlt⟩
  obtain ⟨b, s', hrun, rfl, rfl⟩ := exists_ok_of_wp hwp
  exact hrun

omit h hlt

theorem lt_of_free (hfree : 0 < (view m c l).free) : m.freeblock.toNat < 19832 := by
  obtain ⟨b, hb⟩ := Finset.card_pos.1 hfree
  have := mem_freeBlocks_bitmapped.1 hb
  have := isData_iff.1 this.1
  omega

/-- `alloc_block` takes one of the free blocks. -/
theorem free_next (h : Sound m) (hinv : Inv (view m c l)) (hlt : m.freeblock.toNat < 19832)
    {k : Fs.Slot → Inode} {r : List UInt32} : (view m c l).free = (view m.next k r).free + 1 := by
  have := free_allocated hinv (b := m.freeblock) (mem_freeBlocks_bitmapped.2 ⟨h.isData hlt, le_rfl⟩)
  rw [allocated_view h hlt] at this
  exact this

end View

/-! ### Finding the block -/

section Bmap

variable {m : Image} {i : UInt32} {din : Dinode} {l : List UInt32} {b : UInt32}

theorem loaded_view : (view m (oneInode i din) l).Loaded 0 := ⟨Int.one_pos, rfl⟩

/-- A change of the inode in the cache. -/
theorem setInode_view {f : Inode → Inode} {d : Dinode}
    (hf : f (oneInode i din 0) = oneInode i d 0) :
    (view m (oneInode i din) l).setInode 0 f = view m (oneInode i d) l := by
  have : update (oneInode i din) 0 (f (oneInode i din 0)) = oneInode i d := by
    funext k
    by_cases hk : k = 0
    · rw [hk, update_self, hf]
    · rw [update_of_ne hk, oneInode, oneInode, if_neg hk, if_neg hk]
  unfold State.setInode
  change mk _ _ (update (oneInode i din) 0 (f (oneInode i din 0))) _ _ _ = _
  rw [this]
  rfl

variable (hinv : Inv (view m (oneInode i din) l))

include hinv

theorem cur_view : (view m (oneInode i din) l).cur i = din :=
  hinv.coh.cur_loaded (k := 0) loaded_view

/-- The bitmaps do not matter for what the inode holds. -/
theorem holds_view (k : ℕ) : holds (view m (oneInode i din) l).disk din k = holds m.disk din k := by
  refine holds_congr fun hne => bitmapped_of_isData ?_
  have := hinv.isData (i := i) (hinv.live loaded_view) (k := NDIRECT) (by decide)
  rw [cur_view hinv, holds_indirect] at this
  exact (this hne).1

/-- What the inode holds are data blocks below `freeblock`. -/
theorem held_lt {k : ℕ} (hk : k < NHELD) (h0 : holds m.disk din k ≠ 0) :
    IsData sb (holds m.disk din k).toNat ∧ (holds m.disk din k).toNat < m.freeblock.toNat := by
  have := hinv.isData (i := i) (hinv.live loaded_view) hk
  rw [cur_view hinv, holds_view hinv] at this
  obtain ⟨hd, hu⟩ := this h0
  refine ⟨hd, ?_⟩
  have hd' := isData_iff.1 hd
  change usedBit sb (bitmapped m.freeblock.toNat m.disk) _ = true at hu
  rw [usedBit_bitmapped hd'.1 hd'.2.1, decide_eq_true_eq] at hu
  omega

omit hinv

theorem getInode_view : getInode 0 (view m (oneInode i din) l) =
    .ok (oneInode i din 0, view m (oneInode i din) l) := rfl

/-- **The two `addrOrAlloc` agree.** -/
theorem addrOrAlloc_view (h : Sound m) (j : Fin (NDIRECT + 1))
    (hcap : din.addrs j = 0 → m.freeblock.toNat < 19832) :
    din.addrs j ≠ 0 ∧ addrOrAlloc din j m = .ok (din, m) ∧
      Fs.addrOrAlloc 0 j (view m (oneInode i din) l) =
        .ok (din.addrs j, view m (oneInode i din) l) ∨
    din.addrs j = 0 ∧ addrOrAlloc din j m = .ok (din.setAddr j m.freeblock, m.next) ∧
      Fs.addrOrAlloc 0 j (view m (oneInode i din) l) = .ok (m.freeblock,
        view m.next (oneInode i (din.setAddr j m.freeblock))
          (l ++ [BBLOCK m.freeblock sb, m.freeblock])) := by
  by_cases h0 : din.addrs j = 0
  · refine .inr ⟨h0, ?_, ?_⟩
    · rw [addrOrAlloc, if_pos h0]
      rfl
    · rw [Fs.addrOrAlloc, bind_of_ok getInode_view]
      rw [if_pos (show (oneInode i din 0).addrs j = 0 from h0),
        bind_of_ok (balloc_view h (hcap h0))]
      change Except.ok (m.freeblock, setInode _ 0 _) = _
      rw [setInode_view (d := din.setAddr j m.freeblock) rfl]
  · refine .inl ⟨h0, ?_, ?_⟩
    · rw [addrOrAlloc, if_neg h0]
      rfl
    · rw [Fs.addrOrAlloc, bind_of_ok getInode_view]
      rw [if_neg (show (oneInode i din 0).addrs j ≠ 0 from h0)]
      rfl

/-- The kernel's invariant for the inode with a new address. -/
theorem inv_setAddr (h : Sound m) (hinv : Inv (view m (oneInode i din) l)) {j : Fin (NDIRECT + 1)}
    (h0 : din.addrs j = 0) (hlt : m.freeblock.toNat < 19832) :
    Inv (view m.next (oneInode i (din.setAddr j m.freeblock))
      (l ++ [BBLOCK m.freeblock sb, m.freeblock])) := by
  have := (grows_newAddr hinv loaded_view (i := j) h0
    (mem_freeBlocks_bitmapped.2 ⟨h.isData hlt, le_rfl⟩)).1.inv
  rwa [allocated_view h hlt, setInode_view (d := din.setAddr j m.freeblock) rfl] at this

/-- A store into a data block below `freeblock`. -/
theorem Sound.store (h : Sound m) (hb : IsData sb b.toNat) (hlt : b.toNat < m.freeblock.toNat)
    (blk : Block) : Sound { m with disk := update m.disk b.toNat blk } where
  super := by
    have := isData_iff.1 hb
    change update m.disk b.toNat blk 1 = _
    rw [update_of_ne (by omega)]
    exact h.super
  boot := by
    have := isData_iff.1 hb
    change update m.disk b.toNat blk 0 = _
    rw [update_of_ne (by omega)]
    exact h.boot
  ptr := h.ptr
  zero b' hb' hle := by
    change update m.disk b.toNat blk b' = _
    change m.freeblock.toNat ≤ b' at hle
    rw [update_of_ne (by omega)]
    exact h.zero b' hb' hle
  got := h.got
  nodup := h.nodup

theorem store_view {c : Fs.Slot → Inode} (hb : ¬ IsBitmap b.toNat) (blk : Block) :
    (view m c l).store b blk =
      view { m with disk := update m.disk b.toNat blk } c (l ++ [b]) := by
  unfold store view
  rw [bitmapped_update hb]

theorem rsect_of_isData (hb : IsData sb b.toNat) : rsect b m = .ok (m.disk b.toNat, m) := by
  have := isData_iff.1 hb
  have hlt : b.toNat < FSSIZE := by
    simp only [FSSIZE]
    omega
  rw [rsect, if_pos hlt]
  rfl

theorem bread_view {c : Fs.Slot → Inode} (hb : IsData sb b.toNat) :
    bread b (view m c l) = .ok (m.disk b.toNat, view m c l) := by
  rw [← bitmapped_of_isData (D := m.disk) (n := m.freeblock.toNat) hb]
  rfl

/-- What a part of `iappend` leaves alone. -/
structure Keeps (m m' : Image) : Prop where
  sound : Sound m'
  freeinode : m'.freeinode = m.freeinode
  other : ∀ b, ¬ IsData sb b → m'.disk b = m.disk b

theorem Keeps.refl (h : Sound m) : Keeps m m := ⟨h, rfl, fun _ _ => rfl⟩

theorem Keeps.trans {m' m'' : Image} (h : Keeps m m') (h' : Keeps m' m'') : Keeps m m'' :=
  ⟨h'.sound, h'.freeinode.trans h.freeinode, fun b hb => (h'.other b hb).trans (h.other b hb)⟩

theorem Keeps.next (h : Sound m) (hlt : m.freeblock.toNat < 19832) : Keeps m m.next :=
  ⟨h.next hlt, rfl, fun _ _ => rfl⟩

theorem Keeps.store (h : Sound m) (hb : IsData sb b.toNat) (hlt : b.toNat < m.freeblock.toNat)
    (blk : Block) : Keeps m { m with disk := update m.disk b.toNat blk } :=
  ⟨h.store hb hlt blk, rfl, fun x hx =>
    update_of_ne (fun he => hx (by rw [he]; exact hb)) _ _⟩

/-- The entry of the indirect block. -/
theorem entry_view (h : Sound m) (hinv : Inv (view m (oneInode i din) l)) {j : ℕ}
    (hind : din.addrs (Fin.last NDIRECT) ≠ 0)
    (hcap : (m.disk (din.addrs (Fin.last NDIRECT)).toNat).getU32 (4 * j) = 0 →
      m.freeblock.toNat < 19832) :
    ∃ m' x l', (do
      let indirect ← rsect (din.addrs (Fin.last NDIRECT))
      if indirect.getU32 (4 * j) = 0 then
        let b ← allocBlock
        wsect (din.addrs (Fin.last NDIRECT)) (indirect.putU32 (4 * j) b)
        return (din, b)
      else return (din, indirect.getU32 (4 * j)) : Prog Image (Dinode × UInt32)) m =
        .ok ((din, x), m') ∧
      entryOrAlloc (din.addrs (Fin.last NDIRECT)) j (view m (oneInode i din) l) =
        .ok (x, view m' (oneInode i din) l') ∧ Keeps m m' := by
  obtain ⟨hdata, hlt⟩ :=
    held_lt hinv (k := NDIRECT) (by decide) (by rw [holds_indirect]; exact hind)
  rw [holds_indirect] at hdata hlt
  generalize din.addrs (Fin.last NDIRECT) = ind at *
  rw [bind_of_ok (rsect_of_isData hdata), entryOrAlloc, bind_of_ok (bread_view hdata)]
  by_cases h0 : (m.disk ind.toNat).getU32 (4 * j) = 0
  · have hlt' := hcap h0
    have hdisk : m.next.disk = m.disk := rfl
    refine ⟨_, m.freeblock, l ++ [BBLOCK m.freeblock sb, m.freeblock] ++ [ind], ?_, ?_,
      (Keeps.next h hlt').trans
      (Keeps.store (h.next hlt') hdata (hlt.trans ?_)
        ((m.disk ind.toNat).putU32 (4 * j) m.freeblock))⟩
    · rw [if_pos h0, bind_of_ok (allocBlock_eq m)]
      rfl
    · rw [if_pos h0, bind_of_ok (balloc_view h hlt'), bind_of_ok (bread_view hdata)]
      change Except.ok (_, store _ _ _) = _
      rw [store_view (not_isBitmap_of_isData hdata), hdisk]
    · have := h.ptr
      change _ < (nextBlock m.freeblock).toNat
      rw [nextBlock_toNat this.1 hlt']
      split_ifs <;> omega
  · rw [if_neg h0, if_neg h0]
    exact ⟨m, _, l, rfl, rfl, .refl h⟩

/-- **The block of `iappend` is the block of `bmap`.** -/
theorem bmap_view (h : Sound m) (hinv : Inv (view m (oneInode i din) l)) {bn : ℕ}
    (hbn : bn < MAXFILE) (hcap : bmapCost (view m (oneInode i din) l) 0 bn ≤
      (view m (oneInode i din) l).free) :
    ∃ m' din' x l', iappendBlock din bn m = .ok ((din', x), m') ∧
      bmap 0 bn (view m (oneInode i din) l) = .ok (x, view m' (oneInode i din') l') ∧
      Keeps m m' := by
  unfold iappendBlock bmap
  by_cases hd : bn < NDIRECT
  · rw [dif_pos hd, dif_pos hd]
    have hfree : din.addrs ⟨bn, by omega⟩ = 0 → m.freeblock.toNat < 19832 := by
      intro h0
      refine lt_of_free (lt_of_lt_of_le ?_ hcap)
      have : (view m (oneInode i din) l).addr 0 bn = 0 := by
        rw [addr, blockAddr, dataPlace, if_pos hd]
        exact holds_addr.trans h0
      rw [bmapCost, if_pos this]
      omega
    rcases addrOrAlloc_view h (i := i) (l := l) ⟨bn, by omega⟩ hfree with
      ⟨h0, hmk, hk⟩ | ⟨h0, hmk, hk⟩
    · exact ⟨m, din, _, l, by rw [bind_of_ok hmk]; rfl, hk, .refl h⟩
    · have hself : (din.setAddr ⟨bn, by omega⟩ m.freeblock).addrs ⟨bn, by omega⟩ = m.freeblock :=
        (Dinode.setAddr_addrs ..).trans (if_pos rfl)
      refine ⟨m.next, _, m.freeblock, _, ?_, hk, .next h (hfree h0)⟩
      rw [bind_of_ok hmk, hself]
      rfl
  · have hj : bn - NDIRECT < NINDIRECT := by
      simp only [MAXFILE, NINDIRECT, NDIRECT] at *
      omega
    rw [dif_neg hd, dif_neg hd]
    dsimp only
    rw [if_pos hj]
    have hind : (view m (oneInode i din) l).indirect 0 = din.addrs (Fin.last NDIRECT) := rfl
    have hadd : bn = NDIRECT + (bn - NDIRECT) := by omega
    have hplace : dataPlace bn = 13 + (bn - NDIRECT) := by
      rw [dataPlace, if_neg hd]
      simp only [NDIRECT] at *
      omega
    have haddr : (view m (oneInode i din) l).addr 0 bn =
        (view m (oneInode i din) l).held 0 (13 + (bn - NDIRECT)) := by
      rw [addr, blockAddr, hplace]
      rfl
    have hfree1 : din.addrs (Fin.last NDIRECT) = 0 →
        2 ≤ (view m (oneInode i din) l).free := fun h0 => by
      refine le_trans ?_ hcap
      rw [bmapCost, haddr, held_eq_zero (hind.trans h0) (by simp only [NDIRECT]; omega),
        if_pos rfl, if_pos ⟨by omega, hind.trans h0⟩]
    rcases addrOrAlloc_view h (i := i) (l := l) (Fin.last NDIRECT)
      (fun h0 => lt_of_free (lt_of_lt_of_le two_pos (hfree1 h0))) with
      ⟨h0, hmk, hk⟩ | ⟨h0, hmk, hk⟩
    · rw [bind_of_ok hmk, bind_of_ok hk]
      have hdata := (held_lt hinv (k := NDIRECT) (by decide) (by rw [holds_indirect]; exact h0)).1
      rw [holds_indirect] at hdata
      obtain ⟨m', x, l', hmk', hk', hkeep⟩ := entry_view h hinv (j := bn - NDIRECT) h0 fun he => by
        refine lt_of_free (l := l) (c := oneInode i din) (lt_of_lt_of_le ?_ hcap)
        rw [bmapCost, haddr, held_entry (by rw [hind]; exact h0), hind]
        change 0 < (if (bitmapped _ _ _).getU32 _ = 0 then 1 else 0) + _
        rw [bitmapped_of_isData hdata, if_pos he]
        omega
      exact ⟨m', din, x, l', hmk', hk', hkeep⟩
    · have hlt := lt_of_free (lt_of_lt_of_le two_pos (hfree1 h0))
      rw [bind_of_ok hmk, bind_of_ok hk]
      have hself : (din.setAddr (Fin.last NDIRECT) m.freeblock).addrs (Fin.last NDIRECT) =
          m.freeblock := (Dinode.setAddr_addrs ..).trans (if_pos rfl)
      have hne : m.freeblock ≠ 0 := fun hz => by
        have := h.ptr
        rw [hz] at this
        exact absurd this.1 (by decide)
      have hinv' := inv_setAddr h hinv h0 hlt
      obtain ⟨m', x, l', hmk', hk', hkeep⟩ := entry_view (h.next hlt) hinv' (j := bn - NDIRECT)
        (by rw [hself]; exact hne) fun _ => by
          refine lt_of_free (l := []) (c := oneInode i din) ?_
          have h1 := free_next (r := []) (k := oneInode i din) h hinv hlt
          have h2 := hfree1 h0
          omega
      rw [hself] at hk'
      exact ⟨m', _, x, l', hmk', hk', (Keeps.next h hlt).trans hkeep⟩

/-! ### The loop -/

theorem chunk_eq {n tot off : ℕ} : min (n - tot) ((off / BSIZE + 1) * BSIZE - off) =
    chunk n tot off := by
  have := div_add_mod off BSIZE
  have : (off / BSIZE + 1) * BSIZE = BSIZE * (off / BSIZE) + BSIZE := by ring
  rw [chunk]
  omega

/-- **The loop of `iappend` is the loop of `writei`**, when that one gets all its blocks. -/
theorem writeLoop_view (src : ℕ → UInt8) {n : ℕ} (d : ℕ) : ∀ {tot off : ℕ} {m : Image}
    {din : Dinode} {l : List UInt32} {s' : Fs.State}, n - tot = d → Sound m →
    Inv (view m (oneInode i din) l) → off + (n - tot) ≤ MAXFILE * BSIZE →
    writeLoop 0 src n tot off (view m (oneInode i din) l) = .ok (off + (n - tot), s') →
    ∃ m' din' l', iappendLoop (fun j => src (tot + j)) (n - tot) off din m =
        .ok ((din', off + (n - tot)), m') ∧
      s' = view m' (oneInode i din') l' ∧ Keeps m m' := by
  induction d using Nat.strong_induction_on with
  | _ d ih =>
    intro tot off m din l s' hd h hinv hmax hrun
    rw [writeLoop] at hrun
    by_cases hlt : tot < n
    · rw [if_pos hlt] at hrun
      have hbn : off / BSIZE < MAXFILE := Nat.div_lt_of_lt_mul (by rw [mul_comm]; omega)
      obtain ⟨r, s1, hb, hmap⟩ := exists_ok_of_wp (wp_bmap hinv loaded_view hbn)
      rw [bind_of_ok hb] at hrun
      by_cases hr : r = 0
      · rw [if_pos hr] at hrun
        have := congrArg (fun r : Except Fail (ℕ × Fs.State) => r.toOption.map Prod.fst) hrun
        have : off = off + (n - tot) := Option.some.inj this
        omega
      rw [if_neg hr] at hrun
      have hcost := (hmap.found hr).2.1
      obtain ⟨m1, din1, x, l1, hmk, hk, hkeep⟩ := bmap_view h hinv hbn (by omega)
      obtain ⟨rfl, rfl⟩ := Prod.mk.inj (Except.ok.inj (hb.symm.trans hk))
      have haddr : holds m1.disk din1 (dataPlace (off / BSIZE)) = r := by
        rw [← holds_view hmap.inv]
        exact hmap.addr
      obtain ⟨hdata, hfb⟩ := held_lt hmap.inv (dataPlace_lt hbn) (by rw [haddr]; exact hr)
      rw [haddr] at hdata hfb
      have hpos := chunk_pos off hlt
      have hle := chunk_le_rest n tot off
      have hblock := chunk_le n tot off
      rw [bind_of_ok (bread_view hdata)] at hrun
      change writeLoop 0 src n _ _ (store _ _ _) = _ at hrun
      rw [store_view (not_isBitmap_of_isData hdata),
        show off + (n - tot) = off + chunk n tot off + (n - (tot + chunk n tot off))
          by omega] at hrun
      have hinv2 := (stored_block (fun j => src (tot + j)) hmap.inv loaded_view hpos hblock hbn
        hmap.addr hr).inv
      rw [store_view (not_isBitmap_of_isData hdata)] at hinv2
      have hread : (view m1 (oneInode i din1) l1).disk r.toNat = m1.disk r.toNat :=
        bitmapped_of_isData hdata
      rw [hread] at hinv2
      obtain ⟨m', din', l', hloop, rfl, hkeep'⟩ := ih _ (by omega) rfl
        (hkeep.sound.store hdata hfb _) hinv2 (by omega) hrun
      refine ⟨m', din', l', ?_, rfl, (hkeep.trans (.store hkeep.sound hdata hfb _)).trans hkeep'⟩
      rw [iappendLoop, if_pos (by omega), if_neg (by omega), bind_of_ok hmk]
      dsimp only
      rw [bind_of_ok (rsect_of_isData hdata), chunk_eq]
      change iappendLoop _ _ _ _ { m1 with disk := update m1.disk r.toNat _ } = _
      have hoff : off - off / BSIZE * BSIZE = off % BSIZE := by
        have := div_add_mod off BSIZE
        rw [mul_comm]
        omega
      rw [hoff, show n - tot - chunk n tot off = n - (tot + chunk n tot off) by omega,
        show off + (n - tot) = off + chunk n tot off + (n - (tot + chunk n tot off)) by omega]
      simpa only [add_assoc] using hloop
    · rw [if_neg hlt] at hrun
      obtain ⟨-, rfl⟩ := Prod.mk.inj (Except.ok.inj hrun)
      refine ⟨m, din, l, ?_, rfl, .refl h⟩
      rw [iappendLoop, if_neg (by omega), show off + (n - tot) = off by omega]
      rfl

end Bmap

/-! ### Inodes -/

/-- Inode `i` in the image. -/
def Image.dinode (m : Image) (i : UInt32) : Dinode :=
  getDinode (m.disk (IBLOCK i sb).toNat) (i.toNat % IPB)

/-- The image with inode `i` stored. -/
def Image.put (m : Image) (i : UInt32) (d : Dinode) : Image :=
  { m with
    disk := update m.disk (IBLOCK i sb).toNat
      (putDinode (m.disk (IBLOCK i sb).toNat) (i.toNat % IPB) d) }

section Inodes

variable {m : Image} {i : UInt32} {l : List UInt32} {c : Fs.Slot → Inode}

theorem sb_ninodes : sb.ninodes.toNat = 3168 := by decide

variable (hi : i.toNat < 3168)

include hi

theorem inum_lt : i.toNat < sb.ngroups.toNat * sb.ipg.toNat := by
  rw [sb_ngroups, show sb.ipg.toNat = 32 from rfl]
  omega

/-- Where an inode is. -/
theorem IBLOCK_facts : 32 ≤ (IBLOCK i sb).toNat ∧
    (IBLOCK i sb).toNat < 19832 ∧ ¬ IsBitmap (IBLOCK i sb).toNat ∧
    ¬ IsData sb (IBLOCK i sb).toNat := by
  have hlt := inum_lt hi
  have hblock := groupGeom_sb.IBLOCK_toNat hlt
  rw [groupStart, sb_start, sb_bpg, show sb.ipg.toNat = 32 from rfl] at hblock
  simp only [IPB] at hblock
  refine ⟨by omega, by omega, fun hb => ?_, fun hd => hd.ne_IBLOCK groupGeom_sb hlt rfl⟩
  obtain ⟨g, -, hg⟩ := isBitmap_iff.1 hb
  exact groupGeom_sb.IBLOCK_ne_bitmapBlock hlt g hg

theorem rsect_inode : rsect (IBLOCK i sb) m = .ok (m.disk (IBLOCK i sb).toNat, m) := by
  have hlt : (IBLOCK i sb).toNat < FSSIZE := by
    have := IBLOCK_facts hi
    simp only [FSSIZE]
    omega
  rw [rsect, if_pos hlt]
  rfl

theorem rinode_eq : rinode i m = .ok (m.dinode i, m) := by
  rw [rinode, bind_of_ok (rsect_inode hi)]
  rfl

theorem winode_eq (d : Dinode) : winode i d m = .ok ((), m.put i d) := by
  rw [winode, bind_of_ok (rsect_inode hi)]
  rfl

theorem dinode_view : (view m c l).dinode i = m.dinode i := by
  change getDinode (bitmapped _ _ (IBLOCK i sb).toNat) _ = _
  rw [bitmapped, if_neg (IBLOCK_facts hi).2.2.1]
  rfl

theorem putInode_view (d : Dinode) :
    (view m c l).putInode i d = view (m.put i d) c (l ++ [IBLOCK i sb]) := by
  rw [putInode]
  change store _ (IBLOCK i sb) (putDinode (bitmapped _ _ (IBLOCK i sb).toNat) _ _) = _
  rw [bitmapped, if_neg (IBLOCK_facts hi).2.2.1, store_view (IBLOCK_facts hi).2.2.1]
  rfl

omit hi

theorem Sound.put (h : Sound m) (hi : i.toNat < 3168) (d : Dinode) : Sound (m.put i d) := by
  obtain ⟨h1, h2, -, h4⟩ := IBLOCK_facts hi
  have hother : ∀ b, b ≠ (IBLOCK i sb).toNat → (m.put i d).disk b = m.disk b := fun b hb =>
    update_of_ne hb _ _
  refine ⟨?_, ?_, h.ptr, fun b hb hle => ?_, h.got, h.nodup⟩
  · rw [hother 1 (by omega)]; exact h.super
  · rw [hother 0 (by omega)]; exact h.boot
  · rw [hother b fun he => h4 (he ▸ hb)]; exact h.zero b hb hle

/-- **`iappend` is `writei` at the end of the file**, as long as there are blocks. -/
theorem iappend_view (h : Sound m) (hi : i.toNat < 3168) {p : ℕ → UInt8} {n : ℕ}
    (hinv : Inv (view m (oneInode i (m.dinode i)) l)) (hn : 0 < n)
    (hmax : (m.dinode i).size.toNat + n ≤ MAXFILE * BSIZE)
    (hcap : need (view m (oneInode i (m.dinode i)) l) 0 (m.dinode i).size.toNat n ≤
      (view m (oneInode i (m.dinode i)) l).free) :
    ∃ m' l', iappend i p n m = .ok ((), m') ∧
      Wrote 0 p (m.dinode i).size.toNat n (view m (oneInode i (m.dinode i)) l) n
        (view m' (oneInode i (m'.dinode i)) l') ∧
      Sound m' ∧ m'.freeinode = m.freeinode := by
  obtain ⟨off', s1, hrun, mm, rfl, hstore⟩ :=
    exists_ok_of_wp (wp_writeLoop (n := n) p hinv loaded_view 0 hmax)
  rw [Nat.sub_zero] at hstore
  obtain rfl : n = mm := by
    by_contra hne
    have := (hstore.short (lt_of_le_of_ne hstore.le (Ne.symm hne))).2.2.1
    omega
  obtain ⟨m1, din1, l1, hloop, rfl, hkeep⟩ := writeLoop_view p n rfl h hinv hmax hrun
  rw [Nat.sub_zero] at hloop
  simp only [zero_add] at hloop hstore
  have hput := dinode_putInode (s := view m1 (oneInode i din1) l1) geometry_mkfs
    (by rw [show (view m1 (oneInode i din1) l1).sb.ninodes.toNat = 3168 from sb_ninodes]; exact hi)
    (by rw [show (view m1 (oneInode i din1) l1).sb.ninodes.toNat = 3168 from sb_ninodes]; exact hi)
    { din1 with size := ofNat ((m.dinode i).size.toNat + n) } (i := i) (j := i)
  rw [if_pos rfl, putInode_view hi, dinode_view hi] at hput
  refine ⟨m1.put i { din1 with size := ofNat ((m.dinode i).size.toNat + n) },
    l1 ++ [IBLOCK i sb], ?_, ?_, hkeep.sound.put hi _, hkeep.freeinode⟩
  · rw [iappend, bind_of_ok (rinode_eq hi), bind_of_ok hloop]
    exact winode_eq hi _
  · refine hstore.wrote_grown loaded_view (Nat.lt_add_of_pos_right hn) hmax ?_
    rw [hput, setInode_view (d := { din1 with size := ofNat ((m.dinode i).size.toNat + n) })
      rfl]
    exact (putInode_view hi _).symm

end Inodes

end Xv6.Mkfs
