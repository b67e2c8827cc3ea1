/-
# The superblock `mkfs` writes

`mkfs.c`, `main`, "Initialize Geometry": `nlog = LOGSIZE` blocks of log after
the boot block and the superblock, then as many groups of `BPG` blocks with
`IPG` inodes each as `FSSIZE` blocks hold.  `layout_partition` is what the
macros of `fs.h` make of a superblock, and that for these values the groups end
inside the disk.
-/

import Xv6.Fs.Layout

namespace Xv6.Mkfs

open Fs Superblock UInt32

/-- Blocks per group. -/
@[simp] abbrev BPG : ℕ := 200

/-- Inodes per group. -/
@[simp] abbrev IPG : ℕ := 32

/-- `global_start`: the block where group 0 starts, after boot, superblock and
log. -/
@[simp] abbrev globalStart : ℕ := 2 + LOGSIZE

/-- `meta_per_group`: the inode blocks and the bitmap block. -/
@[simp] abbrev metaPerGroup : ℕ := IPG / IPB + 1

/-- `ngroups`. -/
@[simp] abbrev ngroups : ℕ := (FSSIZE - globalStart) / BPG

/-- `sb`, as `main` fills it in. -/
def sb : Superblock where
  magic := 0x10203040
  size := ofNat FSSIZE
  nblocks := ofNat (ngroups * BPG)
  ninodes := ofNat (ngroups * IPG)
  nlog := ofNat LOGSIZE
  logstart := 2
  inodestart := ofNat globalStart
  bmapstart := ofNat (globalStart + IPG / IPB)
  bpg := ofNat BPG
  ipg := ofNat IPG
  ngroups := ofNat ngroups

/-- The groups of `mkfs` fit. -/
theorem groupGeom_sb : GroupGeom sb where
  ipg_pos := by decide
  ipb_dvd := by decide
  meta_le := by decide
  bpg_le := by decide
  fits := by decide

/-- **The layout is a partition.**  For a superblock whose groups fit, with
`sb.start` the first block of group 0: an inode number below `ngroups * ipg` is
determined by its block and its place there; its block is one of the inode
blocks of its group and no group's bitmap block; the bitmap block of a block of
the groups is that of its group, and with the bit index it determines the
block; and all these blocks lie in the groups, which end inside the disk for
the superblock of `mkfs`. -/
theorem layout_partition (sb : Superblock) (h : GroupGeom sb) :
    (∀ i j : UInt32, i.toNat < sb.ngroups.toNat * sb.ipg.toNat →
      j.toNat < sb.ngroups.toNat * sb.ipg.toNat →
        (IBLOCK i sb, i.toNat % IPB) = (IBLOCK j sb, j.toNat % IPB) → i = j) ∧
    (∀ i : UInt32, i.toNat < sb.ngroups.toNat * sb.ipg.toNat →
      (sb.groupStart (i.toNat / sb.ipg.toNat) ≤ (IBLOCK i sb).toNat ∧
        (IBLOCK i sb).toNat < sb.groupStart (i.toNat / sb.ipg.toNat) + sb.inodeBlocks) ∧
      (∀ g, (IBLOCK i sb).toNat ≠ sb.bitmapBlock g) ∧
      sb.start ≤ (IBLOCK i sb).toNat ∧ (IBLOCK i sb).toNat < sb.limit) ∧
    (∀ b : UInt32, sb.start ≤ b.toNat → b.toNat < sb.limit →
      ((BBLOCK b sb).toNat = sb.bitmapBlock ((b.toNat - sb.start) / sb.bpg.toNat) ∧
        sb.groupStart ((b.toNat - sb.start) / sb.bpg.toNat) ≤ b.toNat ∧
        b.toNat < sb.groupStart ((b.toNat - sb.start) / sb.bpg.toNat + 1)) ∧
      sb.start ≤ (BBLOCK b sb).toNat ∧ (BBLOCK b sb).toNat < sb.limit) ∧
    (∀ b c : UInt32, sb.start ≤ b.toNat → b.toNat < sb.limit → sb.start ≤ c.toNat →
      c.toNat < sb.limit →
        (BBLOCK b sb, (b.toNat - sb.start) % sb.bpg.toNat) =
          (BBLOCK c sb, (c.toNat - sb.start) % sb.bpg.toNat) → b = c) ∧
    Mkfs.sb.limit ≤ FSSIZE := by
  refine ⟨fun i j hi hj he => ?_, fun i hi => ?_, fun b h₁ h₂ => ?_,
    fun b c hb₁ hb₂ hc₁ hc₂ he => ?_,
    by decide⟩
  · rw [Prod.mk.injEq] at he
    exact h.IBLOCK_inj hi hj he.1 he.2
  · have hk := h.inode_offset_lt i
    have hg : i.toNat / sb.ipg.toNat < sb.ngroups.toNat := Nat.div_lt_of_lt_mul (by linarith)
    have hlt := groupStart_add_lt hg (hk.trans h.meta_le)
    refine ⟨?_, h.IBLOCK_ne_bitmapBlock hi, ?_⟩ <;> rw [h.IBLOCK_toNat hi]
    · exact ⟨Nat.le_add_right _ _, Nat.add_lt_add_left hk _⟩
    · exact ⟨(Nat.le_add_right _ _).trans (Nat.le_add_right _ _), hlt⟩
  · obtain ⟨g, k, hg, hk, hb, hbd, -⟩ := h.bits.exists_group h₁ h₂
    have hlt := groupStart_add_lt hg (show sb.inodeBlocks < _ from h.meta_le)
    rw [h.bits.BBLOCK_toNat h₁ h₂, hbd]
    refine ⟨⟨rfl, by omega, ?_⟩, ?_, hlt⟩
    · unfold groupStart at *
      rw [Nat.add_mul]
      omega
    · unfold bitmapBlock groupStart
      omega
  · rw [Prod.mk.injEq] at he
    exact h.BBLOCK_inj hb₁ hb₂ hc₁ hc₂ he.1 he.2

/-- The hypothesis of `layout_partition` is satisfiable: the superblock of
`mkfs`, whose inodes 8 and 40 have one place in blocks of different groups. -/
theorem layout_partition_sb :
    GroupGeom sb ∧ IBLOCK 8 sb ≠ IBLOCK 40 sb ∧ sb.limit = 19832 := by
  refine ⟨groupGeom_sb, fun he => ?_, by decide⟩
  have := (layout_partition sb groupGeom_sb).1 8 40 (by decide) (by decide)
    (by rw [he]; rfl)
  exact absurd this (by decide)

end Xv6.Mkfs
