/-
# The format of the disk

`fs.h`: the structures of the disk as bytes, integers least significant byte
first.  An inode block is `IPB` records of 64 bytes (`Dinode`), the superblock
is eleven `uint`s at the start of block 1, a directory is a file of records of
16 bytes (`Dirent`).

What is used of the formats: an inode written to its place is read back
(`getDinode_putDinode`), the other inodes of the block are left alone
(`getDinode_putDinode_of_ne`), and a directory entry is its sixteen bytes
(`Dirent.ofBytes_bytes`).
-/

import Xv6.Fs.Layout

namespace Xv6.Fs

open Lib Nat

/-- Directory. -/
abbrev T_DIR : Int16 := 1

/-- File. -/
abbrev T_FILE : Int16 := 2

/-- Device. -/
abbrev T_DEV : Int16 := 3

/-- `struct dinode`, the fields of an inode that live on the disk. -/
structure Dinode where
  type : Int16
  major : Int16
  minor : Int16
  nlink : Int16
  size : UInt32
  addrs : Fin (NDIRECT + 1) → UInt32

namespace Dinode

/-- The zeroed inode. -/
def zero : Dinode := ⟨0, 0, 0, 0, 0, fun _ => 0⟩

/-- The inode with a block address set. -/
def setAddr (d : Dinode) (i : Fin (NDIRECT + 1)) (a : UInt32) : Dinode :=
  { d with addrs := Function.update d.addrs i a }

theorem setAddr_addrs (d : Dinode) (i j : Fin (NDIRECT + 1)) (a : UInt32) :
    (d.setAddr i a).addrs j = if j = i then a else d.addrs j := Function.update_apply _ _ _ _

/-- Byte `r` of the inode on disk. -/
def bytes (d : Dinode) (r : ℕ) : UInt8 :=
  if r < 2 then leByte d.type.toUInt16.toNat r
  else if r < 4 then leByte d.major.toUInt16.toNat (r - 2)
  else if r < 6 then leByte d.minor.toUInt16.toNat (r - 4)
  else if r < 8 then leByte d.nlink.toUInt16.toNat (r - 6)
  else if r < 12 then leByte d.size.toNat (r - 8)
  else leByte (d.addrs (Fin.ofNat _ ((r - 12) / 4))).toNat ((r - 12) % 4)

end Dinode

/-- The inode at place `k` of an inode block. -/
def getDinode (b : Block) (k : ℕ) : Dinode where
  type := (b.getU16 (64 * k)).toInt16
  major := (b.getU16 (64 * k + 2)).toInt16
  minor := (b.getU16 (64 * k + 4)).toInt16
  nlink := (b.getU16 (64 * k + 6)).toInt16
  size := b.getU32 (64 * k + 8)
  addrs i := b.getU32 (64 * k + (12 + 4 * i))

/-- The inode block with inode `d` stored at place `k`. -/
def putDinode (b : Block) (k : ℕ) (d : Dinode) : Block := b.overlay (64 * k) 64 d.bytes

variable {b : Block} {k : ℕ}

/-- An inode depends on its own bytes only. -/
theorem getDinode_congr {c : Block}
    (h : ∀ r < 64, b.byte (64 * k + r) = c.byte (64 * k + r)) : getDinode b k = getDinode c k := by
  have hle : ∀ o w : ℕ, o + w ≤ 64 → b.getLE (64 * k + o) w = c.getLE (64 * k + o) w :=
    fun o w ho => Buf.getLE_congr fun r hr => by rw [add_assoc]; exact h _ (by omega)
  simp only [getDinode, Buf.getU16, Buf.getU32, Dinode.mk.injEq]
  refine ⟨?_, ?_, ?_, ?_, ?_, funext fun i => ?_⟩
  · rw [show b.getLE (64 * k) 2 = c.getLE (64 * k) 2 from hle 0 2 (by omega)]
  · rw [hle 2 2 (by omega)]
  · rw [hle 4 2 (by omega)]
  · rw [hle 6 2 (by omega)]
  · rw [hle 8 4 (by omega)]
  · have hi := i.isLt
    simp only [NDIRECT] at hi
    rw [hle (12 + 4 * i) 4 (by omega)]

/-- **An inode written to its place is read back.** -/
theorem getDinode_putDinode (hk : k < IPB) (d : Dinode) :
    getDinode (putDinode b k d) k = d := by
  simp only [IPB] at hk
  have hb : ∀ r < 64, (putDinode b k d).byte (64 * k + r) = d.bytes r := fun r hr => by
    rw [putDinode, Buf.byte_overlay_of_mem (by omega) (by omega)
      (by simp only [BSIZE]; omega), Nat.add_sub_cancel_left]
  have h16 : ∀ (o : ℕ) (v : Int16), o + 2 ≤ 64 →
      (∀ r < 2, d.bytes (o + r) = leByte v.toUInt16.toNat r) →
      ((putDinode b k d).getU16 (64 * k + o)).toInt16 = v := fun o v ho hv => by
    rw [Buf.getU16_of_bytes fun r hr => by rw [add_assoc, hb _ (by omega), hv r hr]]
    simp
  have h32 : ∀ (o : ℕ) (v : UInt32), o + 4 ≤ 64 → (∀ r < 4, d.bytes (o + r) = leByte v.toNat r) →
      (putDinode b k d).getU32 (64 * k + o) = v := fun o v ho hv =>
    Buf.getU32_of_bytes fun r hr => by rw [add_assoc, hb _ (by omega), hv r hr]
  cases d
  simp only [getDinode, Dinode.mk.injEq]
  refine ⟨h16 0 _ (by omega) ?_, h16 2 _ (by omega) ?_, h16 4 _ (by omega) ?_,
    h16 6 _ (by omega) ?_, h32 8 _ (by omega) ?_, funext fun i => ?_⟩
  iterate 5
    · intro r hr
      simp only [Dinode.bytes]
      grind
  · have hi := i.isLt
    simp only [NDIRECT] at hi
    refine h32 _ _ (by omega) fun r hr => ?_
    have hq : (12 + 4 * i.val + r - 12) / 4 = i := by omega
    have hm : (12 + 4 * i.val + r - 12) % 4 = r := by omega
    simp only [Dinode.bytes]
    rw [if_neg (by omega), if_neg (by omega), if_neg (by omega), if_neg (by omega),
      if_neg (by omega), hq, hm, Fin.ofNat_val_eq_self]

/-- The other inodes of the block are left alone. -/
theorem getDinode_putDinode_of_ne {l : ℕ} (h : l ≠ k) (d : Dinode) :
    getDinode (putDinode b k d) l = getDinode b l :=
  getDinode_congr fun _ _ => Buf.byte_overlay_of_not (by omega)

theorem getDinode_zero (k : ℕ) : getDinode Buf.zero k = Dinode.zero := by
  simp [getDinode, Dinode.zero]

/-- `memmove(sb, bp->data, sizeof(*sb))`. -/
def Superblock.ofBlock (b : Block) : Superblock where
  magic := b.getU32 0
  size := b.getU32 4
  nblocks := b.getU32 8
  ninodes := b.getU32 12
  nlog := b.getU32 16
  logstart := b.getU32 20
  inodestart := b.getU32 24
  bmapstart := b.getU32 28
  bpg := b.getU32 32
  ipg := b.getU32 36
  ngroups := b.getU32 40

/-- The fields of the superblock in the order of the structure. -/
def Superblock.words (sb : Superblock) : List UInt32 :=
  [sb.magic, sb.size, sb.nblocks, sb.ninodes, sb.nlog, sb.logstart, sb.inodestart, sb.bmapstart,
    sb.bpg, sb.ipg, sb.ngroups]

/-- Block 1 of the disk: the superblock in a zeroed block. -/
def Superblock.toBlock (sb : Superblock) : Block :=
  Buf.zero.overlay 0 44 fun r => leByte (sb.words.getD (r / 4) 0).toNat (r % 4)

/-- **The superblock is read back.** -/
theorem Superblock.ofBlock_toBlock (sb : Superblock) : ofBlock sb.toBlock = sb := by
  have hword : ∀ j < 11, sb.toBlock.getU32 (4 * j) = sb.words.getD j 0 := fun j hj =>
    Buf.getU32_of_bytes fun r hr => by
      have hq : (4 * j + r) / 4 = j := by omega
      have hm : (4 * j + r) % 4 = r := by omega
      rw [toBlock, Buf.byte_overlay_of_mem (by omega) (by omega) (by simp only [BSIZE]; omega),
        Nat.sub_zero, hq, hm]
  cases sb
  simp only [ofBlock, Superblock.mk.injEq]
  exact ⟨hword 0 (by omega), hword 1 (by omega), hword 2 (by omega), hword 3 (by omega),
    hword 4 (by omega), hword 5 (by omega), hword 6 (by omega), hword 7 (by omega),
    hword 8 (by omega), hword 9 (by omega), hword 10 (by omega)⟩

/-- `struct dirent`. -/
structure Dirent where
  inum : UInt16
  name : Buf DIRSIZ

namespace Dirent

/-- Byte `r` of the entry. -/
def bytes (de : Dirent) (r : ℕ) : UInt8 :=
  if r < 2 then leByte de.inum.toNat r else de.name.byte (r - 2)

/-- The entry in the sixteen bytes `b`. -/
def ofBytes (b : Buf 16) : Dirent := ⟨b.getU16 0, fun i => b.byte (2 + i)⟩

/-- The zeroed entry. -/
def zero : Dirent := ⟨0, Buf.zero⟩

theorem ofBytes_bytes (de : Dirent) : ofBytes (fun i => de.bytes i) = de := by
  have hb : ∀ r < 16, Buf.byte (n := 16) (fun i => de.bytes i) r = de.bytes r := fun r hr => by
    rw [Buf.byte, dif_pos hr]
  have hi : Buf.getU16 (n := 16) (fun i => de.bytes i) 0 = de.inum :=
    Buf.getU16_of_bytes fun r hr => by rw [zero_add, hb r (by omega), bytes, if_pos hr]
  have hn : ∀ i : Fin DIRSIZ, Buf.byte (n := 16) (fun i => de.bytes i) (2 + i) = de.name i :=
    fun i => by
      have := i.isLt
      simp only [DIRSIZ] at this
      rw [hb _ (by omega), bytes, if_neg (by omega), Nat.add_sub_cancel_left, Buf.byte,
        dif_pos i.isLt]
  rw [ofBytes, hi, funext hn]

end Dirent
end Xv6.Fs
