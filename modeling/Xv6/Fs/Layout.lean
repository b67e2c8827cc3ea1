/-
# The block groups

`fs.h`.  After the boot block, the superblock and the log the disk is divided
into block groups of `bpg` blocks, each of them

  [ inode blocks | free bit map | data blocks ]

with `ipg / IPB` inode blocks.  `IBLOCK` is the block of an inode and `BBLOCK`
the bitmap block of a block, both computed in 32-bit unsigned arithmetic.

For a superblock whose groups fit (`GroupGeom`) neither macro wraps around
(`IBLOCK_toNat`, `BBLOCK_toNat`), which is how the rest of the file system uses
them, and the two are what the picture shows: inodes do not collide
(`IBLOCK_inj`), an inode block is never a bitmap block (`IBLOCK_ne_bitmapBlock`),
and a bitmap block with a bit index is one block (`BBLOCK_inj`).
-/

import Xv6.Param
import Mathlib.Algebra.Order.Ring.Nat
import Mathlib.Tactic.Linarith

namespace Xv6.Fs

open Nat

/-- `struct superblock`. -/
structure Superblock where
  magic : UInt32
  size : UInt32
  nblocks : UInt32
  ninodes : UInt32
  nlog : UInt32
  logstart : UInt32
  inodestart : UInt32
  bmapstart : UInt32
  bpg : UInt32
  ipg : UInt32
  ngroups : UInt32
deriving DecidableEq

/-- Block containing inode `i`. -/
def IBLOCK (i : UInt32) (sb : Superblock) : UInt32 :=
  sb.logstart + sb.nlog + i / sb.ipg * sb.bpg + i % sb.ipg / 8

/-- Block of free map containing the bit for block `b`. -/
def BBLOCK (b : UInt32) (sb : Superblock) : UInt32 :=
  sb.logstart + sb.nlog + (b - (sb.logstart + sb.nlog)) / sb.bpg * sb.bpg + sb.ipg / 8

namespace Superblock

variable (sb : Superblock)

/-- The first block of group 0. -/
def start : ℕ := sb.logstart.toNat + sb.nlog.toNat

/-- The first block of group `g`. -/
def groupStart (g : ℕ) : ℕ := sb.start + g * sb.bpg.toNat

/-- Inode blocks of a group. -/
def inodeBlocks : ℕ := sb.ipg.toNat / IPB

/-- The bitmap block of group `g`. -/
def bitmapBlock (g : ℕ) : ℕ := sb.groupStart g + sb.inodeBlocks

/-- The first block past the groups. -/
def limit : ℕ := sb.groupStart sb.ngroups.toNat

variable {sb}

/-- Block `k` of group `g` is in the area of the groups. -/
theorem groupStart_add_lt {g k : ℕ} (hg : g < sb.ngroups.toNat) (hk : k < sb.bpg.toNat) :
    sb.groupStart g + k < sb.limit := by
  have : (g + 1) * sb.bpg.toNat ≤ sb.ngroups.toNat * sb.bpg.toNat := mul_le_mul_right _ hg
  rw [add_mul, one_mul] at this
  unfold Superblock.limit Superblock.groupStart
  omega

/-- A block of the area is one block of one group. -/
theorem groupStart_inj {g g' k k' : ℕ} (hk : k < sb.bpg.toNat) (hk' : k' < sb.bpg.toNat)
    (he : sb.groupStart g + k = sb.groupStart g' + k') : g = g' ∧ k = k' := by
  unfold Superblock.groupStart at he
  have hkg : k + g * sb.bpg.toNat = k' + g' * sb.bpg.toNat := by omega
  have hd := congrArg (· / sb.bpg.toNat) hkg
  have hb : 0 < sb.bpg.toNat := by omega
  simp only [add_mul_div_right _ _ hb, div_eq_of_lt hk, div_eq_of_lt hk', zero_add] at hd
  subst hd
  omega

end Superblock

/-- What the bitmaps need of the superblock: a group has room for its inode blocks
and its bitmap block, the bitmap block for the bits of the group, and block numbers
have 32 bits. -/
structure BitGeom (sb : Superblock) : Prop where
  meta_le : sb.inodeBlocks + 1 ≤ sb.bpg.toNat
  bpg_le : sb.bpg.toNat ≤ BPB
  fits : sb.limit ≤ 2 ^ 32

namespace BitGeom

variable {sb : Superblock} (h : BitGeom sb)
include h

/-- The group and the bit index of a block. -/
theorem exists_group {b : ℕ} (h1 : sb.start ≤ b) (h2 : b < sb.limit) :
    ∃ g k, g < sb.ngroups.toNat ∧ k < sb.bpg.toNat ∧ b = sb.groupStart g + k ∧
      (b - sb.start) / sb.bpg.toNat = g ∧ (b - sb.start) % sb.bpg.toNat = k := by
  have hb : 0 < sb.bpg.toNat := by have := h.meta_le; omega
  have hdm := div_add_mod' (b - sb.start) sb.bpg.toNat
  refine ⟨_, _, ?_, mod_lt (b - sb.start) hb, ?_, rfl, rfl⟩
  · rw [div_lt_iff_lt_mul hb]
    unfold Superblock.limit Superblock.groupStart at h2
    omega
  · unfold Superblock.groupStart
    omega

/-- `BBLOCK` does not wrap around: it is the bitmap block of the block's group. -/
theorem BBLOCK_toNat {b : UInt32} (h1 : sb.start ≤ b.toNat) (h2 : b.toNat < sb.limit) :
    (BBLOCK b sb).toNat = sb.bitmapBlock ((b.toNat - sb.start) / sb.bpg.toNat) := by
  obtain ⟨g, k, hg, hk, hb, hdiv, -⟩ := h.exists_group h1 h2
  have hlt := Superblock.groupStart_add_lt hg (show sb.inodeBlocks < sb.bpg.toNat from h.meta_le)
  have hf := h.fits
  have hbl := b.toNat_lt
  have hs : (sb.logstart + sb.nlog).toNat = sb.start := by
    unfold Superblock.start at *
    rw [UInt32.toNat_add]
    omega
  have hsub : (b - (sb.logstart + sb.nlog)).toNat = b.toNat - sb.start := by
    rw [UInt32.toNat_sub_of_le _ _ (by rw [UInt32.le_iff_toNat_le, hs]; exact h1), hs]
  have hq : ((b - (sb.logstart + sb.nlog)) / sb.bpg).toNat = g := by
    rw [UInt32.toNat_div, hsub, hdiv]
  rw [hdiv]
  unfold BBLOCK Superblock.bitmapBlock Superblock.inodeBlocks Superblock.groupStart at *
  simp only [UInt32.toNat_add, UInt32.toNat_mul, hs, hq, UInt32.toNat_div, UInt32.reduceToNat, IPB]
    at *
  generalize g * sb.bpg.toNat = x at *
  omega

end BitGeom

/-- The groups of the superblock fit: a group has room for its inode blocks and
its bitmap block, the bitmap block for the bits of the group, and block numbers
have 32 bits. -/
structure GroupGeom (sb : Superblock) : Prop where
  ipg_pos : 0 < sb.ipg.toNat
  ipb_dvd : IPB ∣ sb.ipg.toNat
  meta_le : sb.inodeBlocks + 1 ≤ sb.bpg.toNat
  bpg_le : sb.bpg.toNat ≤ BPB
  fits : sb.limit ≤ 2 ^ 32

namespace GroupGeom

variable {sb : Superblock} (h : GroupGeom sb)
include h

theorem bits : BitGeom sb := ⟨h.meta_le, h.bpg_le, h.fits⟩

theorem IBLOCK_toNat {i : UInt32} (hi : i.toNat < sb.ngroups.toNat * sb.ipg.toNat) :
    (IBLOCK i sb).toNat =
      sb.groupStart (i.toNat / sb.ipg.toNat) + i.toNat % sb.ipg.toNat / IPB := by
  have hg : i.toNat / sb.ipg.toNat < sb.ngroups.toNat := Nat.div_lt_of_lt_mul (by linarith)
  have hk : i.toNat % sb.ipg.toNat / 8 < sb.bpg.toNat := by
    have h1 := mod_lt i.toNat h.ipg_pos
    have h2 := h.meta_le
    unfold Superblock.inodeBlocks at h2
    simp only [IPB] at h2
    omega
  have hlt := Superblock.groupStart_add_lt hg hk
  have hf := h.fits
  unfold Superblock.groupStart Superblock.start at *
  simp only [IBLOCK, UInt32.toNat_add, UInt32.toNat_mul, UInt32.toNat_div, UInt32.toNat_mod,
    UInt32.reduceToNat, IPB]
  generalize i.toNat / sb.ipg.toNat * sb.bpg.toNat = x at *
  generalize i.toNat % sb.ipg.toNat / 8 = y at *
  omega

/-- An inode block is one of the inode blocks of the inode's group. -/
theorem inode_offset_lt (i : UInt32) : i.toNat % sb.ipg.toNat / IPB < sb.inodeBlocks := by
  have h1 := mod_lt i.toNat h.ipg_pos
  have h2 := h.ipb_dvd
  unfold Superblock.inodeBlocks
  simp only [IPB] at *
  omega

/-- **Inodes do not collide**: the block of an inode and its place in the block
determine it. -/
theorem IBLOCK_inj {i j : UInt32} (hi : i.toNat < sb.ngroups.toNat * sb.ipg.toNat)
    (hj : j.toNat < sb.ngroups.toNat * sb.ipg.toNat) (hb : IBLOCK i sb = IBLOCK j sb)
    (hm : i.toNat % IPB = j.toNat % IPB) : i = j := by
  have he := congrArg UInt32.toNat hb
  rw [h.IBLOCK_toNat hi, h.IBLOCK_toNat hj] at he
  have hml := h.meta_le
  obtain ⟨hg, hk⟩ := Superblock.groupStart_inj
    ((h.inode_offset_lt i).trans hml) ((h.inode_offset_lt j).trans hml) he
  have hmi := mod_mod_of_dvd i.toNat h.ipb_dvd
  have hmj := mod_mod_of_dvd j.toNat h.ipb_dvd
  have hdi := div_add_mod i.toNat sb.ipg.toNat
  have hdj := div_add_mod j.toNat sb.ipg.toNat
  rw [hg] at hdi
  apply UInt32.toNat_inj.1
  simp only [IPB] at *
  omega

/-- **An inode block is never a bitmap block**, of any group. -/
theorem IBLOCK_ne_bitmapBlock {i : UInt32} (hi : i.toNat < sb.ngroups.toNat * sb.ipg.toNat)
    (g : ℕ) : (IBLOCK i sb).toNat ≠ sb.bitmapBlock g := by
  rw [h.IBLOCK_toNat hi]
  intro he
  have hml := h.meta_le
  have hk := h.inode_offset_lt i
  have := (Superblock.groupStart_inj (hk.trans hml) hml he).2
  omega

/-- **A bitmap block and a bit index are one block.** -/
theorem BBLOCK_inj {b c : UInt32} (hb1 : sb.start ≤ b.toNat) (hb2 : b.toNat < sb.limit)
    (hc1 : sb.start ≤ c.toNat) (hc2 : c.toNat < sb.limit) (he : BBLOCK b sb = BBLOCK c sb)
    (hm : (b.toNat - sb.start) % sb.bpg.toNat = (c.toNat - sb.start) % sb.bpg.toNat) : b = c := by
  obtain ⟨g, k, -, hk, hb, hbd, hbm⟩ := h.bits.exists_group hb1 hb2
  obtain ⟨g', k', -, hk', hc, hcd, hcm⟩ := h.bits.exists_group hc1 hc2
  have he := congrArg UInt32.toNat he
  rw [h.bits.BBLOCK_toNat hb1 hb2, h.bits.BBLOCK_toNat hc1 hc2, hbd, hcd] at he
  obtain ⟨rfl, -⟩ := Superblock.groupStart_inj h.meta_le h.meta_le he
  apply UInt32.toNat_inj.1
  rw [hb, hc]
  omega

end GroupGeom
end Xv6.Fs
