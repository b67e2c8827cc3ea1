/-
# The bitmaps of `mkfs` are exact

`mkfs` does not keep its bitmaps while it allocates: `balloc` rebuilds them at the
end from the one pointer `freeblock`.  A bit is set nevertheless exactly where a
block is metadata or is held by an inode (`mkfs_bitmaps`).  One direction is the
accounting (`Books`): what an inode holds is marked.  The other is a count: an
inode of `z` bytes holds exactly `blocksOf z` numbers (`holds_ne_zero_iff`), all
inodes together as many as there are marked data blocks, so no marked block is
left over (`Progress.held`).

The size of the root directory is rounded up to the next block at the end, also
when its entries fill their last block.  The directory then has a block index
that no block is mapped to; this is so exactly when the number of entries is a
multiple of 32 (`root_whole_iff`).
-/

import Mathlib.Algebra.BigOperators.Fin
import Xv6.Mkfs.Format

namespace Xv6.Mkfs

open Finset Fs Lib UInt32

/-! ### What an inode holds -/

/-- **An inode of `z` bytes holds its first `blocksOf z` numbers.** -/
theorem holds_ne_zero_iff {D : Disk} {d : Dinode} (h : Tight D d)
    (hz : d.size.toNat ≤ MAXFILE * BSIZE) {k : ℕ} (hk : k < NHELD) :
    holds D d k ≠ 0 ↔ k < blocksOf d.size.toNat := by
  have hdata := h.data
  have hind := h.indirect
  simp only [MAXFILE, BSIZE, NHELD, NDIRECT] at hz hk hdata hind
  unfold blocksOf
  rcases Nat.lt_trichotomy k 12 with hlt | rfl | hgt
  · have hplace : blockAddr D d k = holds D d k := by
      rw [blockAddr, dataPlace, if_pos hlt]
    rw [← hplace, hdata k (by omega)]
    split_ifs <;> omega
  · have hplace : holds D d 12 = d.addrs (Fin.last NDIRECT) := holds_indirect
    rw [hplace, hind]
    split_ifs <;> omega
  · have hplace : blockAddr D d (k - 1) = holds D d k := by
      rw [blockAddr, dataPlace, if_neg (by simp only [NDIRECT]; omega),
        Nat.sub_add_cancel (by omega)]
    rw [← hplace, hdata (k - 1) (by omega)]
    split_ifs <;> omega

section Count

variable {m : Image} {files : List Input} {b : ℕ}

/-- The inodes that `mkfs` has made. -/
def inodeOf (files : List Input) (j : Fin (files.length + 1)) : UInt32 := UInt32.ofNat (j + 1)

/-- Their contents. -/
def bytesOf (files : List Input) : Fin (files.length + 1) → List UInt8 :=
  Fin.cases (rootBytes files) fun j => (files.get j).contents

theorem Progress.fileIs (h : Progress m files) (j : Fin (files.length + 1)) :
    ∃ t, t ≠ 0 ∧ FileIs m (inodeOf files j) t (bytesOf files j) := by
  induction j using Fin.cases with
  | zero => exact ⟨T_DIR, by decide, h.root⟩
  | succ j =>
    refine ⟨T_FILE, by decide, ?_⟩
    have hfile := h.file j (files.get j) (List.getElem?_eq_getElem j.isLt)
    rwa [show j.val + 2 = j.succ.val + 1 from rfl] at hfile

theorem inodeOf_toNat (hfit : Fits files) (j : Fin (files.length + 1)) :
    (inodeOf files j).toNat = j + 1 := by
  have hino := hfit.inodes
  have hj := j.isLt
  simp only [ngroups, IPG, FSSIZE, globalStart, LOGSIZE, BPG] at hino
  rw [inodeOf, toNat_ofNat', Nat.mod_eq_of_lt (by omega)]

theorem length_bytesOf_le (hfit : Fits files) (j : Fin (files.length + 1)) :
    (bytesOf files j).length ≤ MAXFILE * BSIZE := by
  induction j using Fin.cases with
  | zero =>
    have hino := hfit.inodes
    simp only [ngroups, IPG, FSSIZE, globalStart, LOGSIZE, BPG] at hino
    rw [show bytesOf files 0 = rootBytes files from rfl, length_rootBytes]
    simp only [MAXFILE, BSIZE]
    omega
  | succ j => exact hfit.size _ (List.get_mem files j)

theorem sum_blocksOf (files : List Input) :
    ∑ j, blocksOf (bytesOf files j).length =
      blocksOf (16 * (files.length + 2)) + fileBlocks files := by
  rw [Fin.sum_univ_succ, show bytesOf files 0 = rootBytes files from rfl,
    length_rootBytes, fileBlocks,
    ← Fin.sum_univ_fun_getElem]
  rfl

theorem usedBit_final (h1 : 32 ≤ b) (h2 : b < 19832) :
    usedBit sb m.final b = decide ((b - 32) % 200 < 5 ∨ b < m.freeblock.toNat) :=
  usedBit_bitmapped h1 h2

/-- The data blocks below `freeblock`. -/
def marked (m : Image) : Finset ℕ :=
  (Finset.Ico 32 19832).filter fun b => 4 < (b - 32) % 200 ∧ b < m.freeblock.toNat

theorem mem_marked : b ∈ marked m ↔ IsData sb b ∧ b < m.freeblock.toNat := by
  rw [marked, mem_filter, mem_Ico, isData_iff]
  tauto

/-- A data block is marked or free. -/
theorem card_marked (m : Image) : (marked m).card + m.free = 99 * 195 := by
  rw [← card_isData, Image.free, ← card_union_of_disjoint]
  · congr 1
    ext b
    rw [mem_union, mem_marked, Image.final, mem_freeBlocks_bitmapped, mem_filter,
      mem_Ico, isData_iff]
    omega
  · rw [disjoint_left]
    intro b hb hfree
    rw [mem_marked] at hb
    rw [Image.final, mem_freeBlocks_bitmapped] at hfree
    omega

/-- What the inodes hold, by inode and place. -/
def places (files : List Input) : Finset (Σ _ : Fin (files.length + 1), ℕ) :=
  univ.sigma fun j => range (blocksOf (bytesOf files j).length)

/-- The block at a place. -/
def Image.heldAt (m : Image) (files : List Input) (x : Σ _ : Fin (files.length + 1), ℕ) : UInt32 :=
  holds m.final (m.dinode (inodeOf files x.1)) x.2

/-- A place of the inodes holds a block. -/
theorem Progress.heldAt_ne_zero (h : Progress m files) (hfit : Fits files)
    {x : Σ _ : Fin (files.length + 1), ℕ} (hx : x ∈ places files) :
    Live sb m.cur (inodeOf files x.1) ∧ x.2 < NHELD ∧ m.heldAt files x ≠ 0 := by
  obtain ⟨t, ht, hf⟩ := h.fileIs x.1
  have hlen := length_bytesOf_le hfit x.1
  have hk : x.2 < blocksOf (bytesOf files x.1).length :=
    mem_range.1 (mem_sigma.1 hx).2
  have hlt : x.2 < NHELD := by
    unfold blocksOf at hk
    simp only [MAXFILE, BSIZE, NHELD] at *
    split_ifs at hk <;> omega
  refine ⟨hf.live ht, hlt, (holds_ne_zero_iff hf.tight ?_ hlt).2 ?_⟩
  · rw [hf.size]
    exact hlen
  · rw [hf.size]
    exact hk

/-- **Every marked data block is held by an inode**: the inodes hold as many different blocks as
there are marked ones. -/
theorem Progress.held (h : Progress m files) (hfit : Fits files) (hb : IsData sb b)
    (hlt : b < m.freeblock.toNat) : ∃ x ∈ places files, (m.heldAt files x).toNat = b := by
  have hcur : ∀ j, m.cur (inodeOf files j) = m.dinode (inodeOf files j) := fun j => by
    obtain ⟨t, -, hf⟩ := h.fileIs j
    rw [Image.cur, if_pos hf.lt]
  have hinj : Set.InjOn (fun x => (m.heldAt files x).toNat) (places files) := by
    intro x hx y hy he
    obtain ⟨hlx, hkx, hnx⟩ := h.heldAt_ne_zero hfit hx
    obtain ⟨hly, hky, -⟩ := h.heldAt_ne_zero hfit hy
    have hbooks := h.books.inj _ _ hlx hly _ hkx _ hky
    rw [hcur, hcur] at hbooks
    obtain ⟨hi, hk⟩ := hbooks hnx (UInt32.toNat_inj.1 he)
    have hj : x.1 = y.1 := by
      have hi := congrArg toNat hi
      rw [inodeOf_toNat hfit, inodeOf_toNat hfit] at hi
      exact Fin.ext (by omega)
    exact Sigma.ext hj (heq_of_eq hk)
  have himage : (places files).image (fun x => (m.heldAt files x).toNat) = marked m := by
    refine eq_of_subset_of_card_le (fun c hc => ?_) ?_
    · obtain ⟨x, hx, rfl⟩ := mem_image.1 hc
      obtain ⟨hl, hk, hn⟩ := h.heldAt_ne_zero hfit hx
      have hbooks := h.books.data _ hl _ hk
      rw [hcur] at hbooks
      obtain ⟨hdata, hused⟩ := hbooks hn
      refine mem_marked.2 ⟨hdata, ?_⟩
      have hd := isData_iff.1 hdata
      rw [usedBit_final hd.1 hd.2.1, decide_eq_true_eq] at hused
      exact hused.resolve_left (by omega)
    · have hcard := card_marked m
      have hfree := h.free
      simp only [ngroups, BPG, metaPerGroup, IPG, IPB, FSSIZE, globalStart, LOGSIZE] at hfree
      rw [card_image_of_injOn hinj, places, card_sigma]
      simp only [card_range]
      rw [sum_blocksOf]
      omega
  rw [← mem_image, himage]
  exact mem_marked.2 ⟨hb, hlt⟩

/-- Rounding up the size of the root directory moves no block. -/
theorem Progress.heldAt_rounded (h : Progress m files) {x : Σ _ : Fin (files.length + 1), ℕ} :
    m.rounded.heldAt files x = m.heldAt files x := by
  have hi : ROOTINO.toNat < 3168 := by decide
  obtain ⟨t, ht, hf⟩ := h.fileIs x.1
  have hsame : SameBlocks m.final m.rounded.final (m.cur (inodeOf files x.1)) :=
    h.books.sameBlocks_put hi (hf.live ht)
  rw [Image.cur, if_pos hf.lt] at hsame
  have haddrs : (m.rounded.dinode (inodeOf files x.1)).addrs =
    (m.dinode (inodeOf files x.1)).addrs := by
    rw [Image.rounded, dinode_put hi hf.lt]
    split_ifs with hroot
    · rw [hroot]
    · rfl
  rw [Image.heldAt, Image.heldAt, holds_congr_addrs haddrs, holds_congr hsame.indirect]

end Count

/-! ### The bitmaps -/

/-- Block `b` is a nonzero entry of some inode's `addrs` or of some inode's indirect block. -/
def Image.Occurs (m : Image) (b : ℕ) : Prop :=
  ∃ i : UInt32, i.toNat < sb.ninodes.toNat ∧ ∃ a : UInt32, a ≠ 0 ∧ a.toNat = b ∧
    ((∃ j, (m.dinode i).addrs j = a) ∨
      (m.dinode i).addrs (Fin.last NDIRECT) ≠ 0 ∧ ∃ j < NINDIRECT,
        (m.disk ((m.dinode i).addrs (Fin.last NDIRECT)).toNat).getU32 (4 * j) = a)

variable {m : Image}

/-- In terms of the places of the inodes. -/
theorem occurs_iff {b : ℕ} : m.Occurs b ↔ ∃ i : UInt32, i.toNat < 3168 ∧
    ∃ k < NHELD, holds m.disk (m.dinode i) k ≠ 0 ∧ (holds m.disk (m.dinode i) k).toNat = b := by
  rw [Image.Occurs, sb_ninodes]
  constructor
  · rintro ⟨i, hi, a, ha, rfl, ⟨j, rfl⟩ | ⟨hind, j, hj, rfl⟩⟩
    · have hlt := j.isLt
      refine ⟨i, hi, j, ?_, ?_, ?_⟩
      · simp only [NDIRECT, NHELD] at *
        omega
      · rw [holds_addr]
        exact ha
      · rw [holds_addr]
    · have hplace : holds m.disk (m.dinode i) (13 + j) =
          (m.disk ((m.dinode i).addrs (Fin.last NDIRECT)).toNat).getU32 (4 * j) := by
        rw [holds, dif_neg (by omega), if_neg hind, Nat.add_sub_cancel_left]
      refine ⟨i, hi, 13 + j, ?_, ?_, ?_⟩
      · simp only [NINDIRECT, NHELD] at *
        omega
      · rw [hplace]
        exact ha
      · rw [hplace]
  · rintro ⟨i, hi, k, hk, hne, rfl⟩
    refine ⟨i, hi, _, hne, rfl, ?_⟩
    by_cases hk13 : k < 13
    · exact .inl ⟨⟨k, hk13⟩, (holds_addr (i := ⟨k, hk13⟩)).symm⟩
    · by_cases hind : (m.dinode i).addrs (Fin.last NDIRECT) = 0
      · rw [holds, dif_neg hk13, if_pos hind] at hne
        exact absurd rfl hne
      · refine .inr ⟨hind, k - 13, ?_, ?_⟩
        · simp only [NINDIRECT, NHELD] at *
          omega
        · rw [holds, dif_neg hk13, if_neg hind]

variable {i : UInt32}

/-- Writing the bitmaps leaves the inodes alone. -/
theorem dinode_final (m : Image) (hi : i.toNat < 3168) :
    Image.dinode { m with disk := m.final } i = m.dinode i := by
  change getDinode (bitmapped _ _ (IBLOCK i sb).toNat) _ = _
  rw [bitmapped, if_neg (IBLOCK_facts hi).2.2.1]
  rfl

/-- The inodes of the image. -/
theorem Made.inode_cases {files : List Input} (h : Made m files)
    (hi : i.toNat < 3168) : i = ROOTINO ∨
      (∃ j f, files[j]? = some f ∧ i = UInt32.ofNat (j + 2) ∧ FileIs m i T_FILE f.contents) ∨
      m.dinode i = Dinode.zero := by
  by_cases hrest : i = 0 ∨ files.length + 2 ≤ i.toNat
  · exact .inr (.inr (h.rest i hrest hi))
  · rw [not_or] at hrest
    have hne : i.toNat ≠ 0 := fun hc => hrest.1 (UInt32.toNat_inj.1 hc)
    by_cases hroot : i = ROOTINO
    · exact .inl hroot
    · have hone : i.toNat ≠ 1 := fun hc => hroot (UInt32.toNat_inj.1 hc)
      have hlt : i.toNat - 2 < files.length := by omega
      have hget := List.getElem?_eq_getElem hlt
      have hfile := h.file (i.toNat - 2) _ hget
      have hnum : ofNat (i.toNat - 2 + 2) = i := by
        rw [show i.toNat - 2 + 2 = i.toNat by omega, UInt32.ofNat_toNat]
      rw [hnum] at hfile
      exact .inr (.inl ⟨_, _, hget, hnum.symm, hfile⟩)

/-- An inode of the image that is not in use is zero. -/
theorem Made.live_or_zero {files : List Input} (h : Made m files)
    (hi : i.toNat < 3168) : Live sb m.cur i ∨ m.dinode i = Dinode.zero := by
  rcases h.inode_cases hi with rfl | ⟨j, f, -, -, hfile⟩ | hzero
  · exact .inl ⟨hi, by rw [Image.cur, if_pos hi, h.root.1]; decide⟩
  · exact .inl (hfile.live (by decide))
  · exact .inr hzero

/-- **The bitmaps of `mkfs` are exact**, and `alloc_block` has returned data blocks only, and none
of them twice. -/
theorem mkfs_bitmaps {files : List Input} (hgood : ∀ f ∈ files, f.Good) (hfit : Fits files) :
    ∃ m, main files Image.init = .ok ((), m) ∧
      (∀ g < ngroups, ∀ k < BPG, (m.disk (globalStart + g * BPG + IPG / IPB)).bit k = true ↔
        k < metaPerGroup ∨ m.Occurs (globalStart + g * BPG + k)) ∧
      (∀ b ∈ m.got, IsData sb b.toNat) ∧ m.got.Nodup := by
  obtain ⟨m, hmain, hp⟩ := main_eq hgood hfit
  have hmade := hp.made hfit
  refine ⟨_, hmain, fun g hg k hk => ?_, fun b hb => (hmade.sound.got b hb).1, hmade.sound.nodup⟩
  have hg' : g < 99 := hg
  have hk' : k < 200 := hk
  have hbm : globalStart + g * BPG + IPG / IPB = sb.bitmapBlock g := by
    rw [sb_bitmapBlock]
    simp only [globalStart, LOGSIZE, BPG, IPG, IPB]
    omega
  have hblock : globalStart + g * BPG + k = sb.groupStart g + k := by
    rw [Superblock.groupStart, sb_start, sb_bpg]
    rfl
  have hnum : sb.groupStart g + k = 32 + g * 200 + k := by
    rw [Superblock.groupStart, sb_start, sb_bpg]
  have hused := usedBit_final (m := m.rounded) (b := sb.groupStart g + k) (by omega) (by omega)
  change (m.rounded.final _).bit k = true ↔ _
  rw [hbm, hblock, ← usedBit_groupStart_add (sb_bpg.symm ▸ hk'), occurs_iff]
  change _ ↔ _ ∨ ∃ i : UInt32, _ ∧ ∃ k < NHELD, holds m.rounded.final _ k ≠ 0 ∧
    (holds m.rounded.final _ k).toNat = _
  constructor
  · intro hset
    rw [hused, decide_eq_true_eq] at hset
    by_cases hmeta : k < metaPerGroup
    · exact .inl hmeta
    · -- a marked data block is held
      have hk5 : 5 ≤ k := Nat.le_of_not_lt hmeta
      have hdata : IsData sb (sb.groupStart g + k) := isData_iff.2 (by omega)
      obtain ⟨x, hx, he⟩ := hp.held hfit hdata (hset.resolve_left (by omega))
      obtain ⟨hl, hk₀, hne⟩ := hp.heldAt_ne_zero hfit hx
      refine .inr ⟨inodeOf files x.1, hl.1, x.2, hk₀, ?_⟩
      rw [dinode_final _ hl.1]
      rw [← hp.heldAt_rounded] at hne he
      exact ⟨hne, he⟩
  · rintro (hmeta | ⟨i, hi, k', hk', hne, he⟩)
    · have hk5 : k < 5 := hmeta
      rw [hused, decide_eq_true_eq]
      omega
    · rw [dinode_final _ hi] at hne he
      rcases hmade.live_or_zero hi with hl | hzero
      · have hbooks := (hmade.books.data i hl k' hk')
        rw [Image.cur, if_pos hi] at hbooks
        rw [← he]
        exact (hbooks hne).2
      · rw [hzero] at hne
        exact absurd (holds_eq_zero fun _ => rfl) hne

/-- Two files, one of them empty. -/
def sampleFiles : List Input := [⟨[95, 115, 104], [[104, 105], [33]]⟩, ⟨[97], []⟩]

theorem good_sampleFiles : ∀ f ∈ sampleFiles, f.Good := by
  intro f hf
  rcases List.mem_pair.1 hf with rfl | rfl
  · exact ⟨by decide, by decide⟩
  · exact ⟨by decide, by decide⟩

/-- The hypotheses of `mkfs_bitmaps` are satisfiable. -/
theorem mkfs_bitmaps_sample : ∃ m, main sampleFiles Image.init = .ok ((), m) ∧ m.got.Nodup := by
  obtain ⟨m, hm, -, -, hnodup⟩ := mkfs_bitmaps good_sampleFiles
    ⟨by decide, by decide, by decide⟩
  exact ⟨m, hm, hnodup⟩

/-! ### The root directory -/

/-- Every block index below the size of the root directory is mapped to an allocated block, and the
kernel reads the directory without changing anything. -/
structure Image.RootWhole (m : Image) : Prop where
  mapped : ∀ bn < (m.dinode ROOTINO).size.toNat / BSIZE,
    blockAddr m.disk (m.dinode ROOTINO) bn ≠ 0 ∧
      usedBit sb m.disk (blockAddr m.disk (m.dinode ROOTINO) bn).toNat = true
  reads : ∀ (s : Fs.State) (k : Fs.Slot) (off n : UInt32), Inv s → s.disk = m.disk →
    s.Loaded k → (s.icache k).toDinode = m.dinode ROOTINO → ∃ r, readi k off n s = .ok (r, s)

/-- **The root directory has no hole exactly when its entries do not fill their last block.** -/
theorem root_whole_iff {files : List Input} (hgood : ∀ f ∈ files, f.Good) (hfit : Fits files) :
    ∃ m, main files Image.init = .ok ((), m) ∧ (m.RootWhole ↔ ¬ 32 ∣ files.length + 2) := by
  obtain ⟨m, hmain, hmade⟩ := main_made hgood hfit
  have hi : ROOTINO.toNat < 3168 := by decide
  have hino := hfit.inodes
  simp only [ngroups, IPG, FSSIZE, globalStart, LOGSIZE, BPG] at hino
  obtain ⟨htype, -, hsize⟩ := hmade.root
  have hblocks := hmade.rootBlocks
  simp only [MAXFILE, BSIZE] at hblocks
  have hlive : Live sb m.cur ROOTINO := ⟨hi, by rw [Image.cur, if_pos hi, htype]; decide⟩
  refine ⟨_, hmain, ?_⟩
  have hdin := dinode_final m hi
  constructor
  · rintro ⟨hmapped, -⟩ hdvd
    rw [hdin, hsize] at hmapped
    obtain ⟨q, hq⟩ := hdvd
    refine absurd ((hblocks q (by omega)).1 (hmapped q ?_).1) (by omega)
    simp only [BSIZE]
    omega
  · intro hdvd
    have haddr : ∀ bn < (m.dinode ROOTINO).size.toNat / BSIZE,
        blockAddr m.final (m.dinode ROOTINO) bn ≠ 0 := by
      intro bn hbn
      rw [hsize] at hbn
      simp only [BSIZE] at hbn
      exact (hblocks bn (by omega)).2 (by omega)
    refine ⟨?_, ?_⟩
    · rw [hdin]
      intro bn hbn
      have hne := haddr bn hbn
      have hlt : bn < MAXFILE := by
        rw [hsize] at hbn
        simp only [BSIZE, MAXFILE] at *
        omega
      have hbooks := hmade.books.data _ hlive (dataPlace bn) (dataPlace_lt hlt)
      rw [Image.cur, if_pos hi] at hbooks
      exact ⟨hne, (hbooks hne).2⟩
    · rw [hdin]
      intro s k off n hinv hdisk hk hroot
      have hty : (s.icache k).type ≠ T_DEV := by
        rw [hroot, htype]
        decide
      have hwp : wp (readi k off n) (fun _ => False) (fun _ s' => s' = s) s := by
        refine wp_readi hinv hk hty (fun _ => rfl) fun r s' hoff _ hr _ hsame => hsame ?_
        intro x _ hx
        rw [State.addr, hdisk, hroot]
        refine haddr _ ?_
        rw [hroot] at hoff hr
        rw [hsize] at hoff hr ⊢
        simp only [BSIZE]
        omega
      obtain ⟨r, s', hs', rfl⟩ := exists_ok_of_wp hwp
      exact ⟨r, hs'⟩

/-- The hypotheses of `root_whole_iff` are satisfiable. -/
theorem root_whole_iff_sample :
    ∃ m, main sampleFiles Image.init = .ok ((), m) ∧ m.RootWhole := by
  obtain ⟨m, hm, hiff⟩ := root_whole_iff good_sampleFiles ⟨by decide, by decide, by decide⟩
  exact ⟨m, hm, hiff.2 (by decide)⟩

/-- With thirty files the entries fill one block, and the size says two. -/
theorem root_hole : ∃ m, main (List.replicate 30 ⟨[97], []⟩) Image.init = .ok ((), m) ∧
    (m.dinode ROOTINO).size = 1024 ∧ blockAddr m.disk (m.dinode ROOTINO) 1 = 0 := by
  have hgood : ∀ f ∈ List.replicate 30 (⟨[97], []⟩ : Input), f.Good := by
    intro f hf
    rw [List.eq_of_mem_replicate hf]
    exact ⟨by decide, by decide⟩
  obtain ⟨m, hmain, hmade⟩ := main_made hgood ⟨by decide, by decide, by decide⟩
  refine ⟨_, hmain, ?_⟩
  rw [dinode_final m (by decide)]
  refine ⟨UInt32.toNat_inj.1 hmade.root.2.2, ?_⟩
  by_contra hne
  exact absurd ((hmade.rootBlocks 1 (by decide)).1 hne) (by decide)

end Xv6.Mkfs
