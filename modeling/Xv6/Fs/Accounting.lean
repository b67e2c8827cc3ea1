/-
# Block accounting

Which block numbers an inode holds, and what a sound bookkeeping of them is, on
its own: a disk, a set of used blocks and an inode for every inode number.  The
kernel instantiates it with its bitmaps and its cached inodes, `mkfs` with its
allocation pointer.

An inode holds 141 block numbers (`holds`): the twelve direct ones, the
indirect block, and the 128 entries of the indirect block; `0` stands for none.
The books are right (`Accounted`) when every number held by an allocated inode
is a data block of a group and is used, and no number is held in two places.

All changes to the books are cases of two rules: `Accounted.frame`, nothing held
is touched, and `Accounted.update`, one inode is changed.
-/

import Xv6.Fs.Format
import Mathlib.Data.Finset.Card
import Mathlib.Order.Interval.Finset.Nat

namespace Xv6.Fs

open Lib Nat
open Function (update_self update_of_ne)

/-! ### Data blocks -/

/-- The superblock describes block groups that fit the disk, behind the boot
block and the superblock, with room for all inodes; a directory entry can name
each of them. -/
structure Geometry (sb : Superblock) : Prop extends GroupGeom sb where
  two_le : 2 ≤ sb.start
  ninodes_le : sb.ninodes.toNat ≤ sb.ngroups.toNat * sb.ipg.toNat
  ninodes_le_ushort : sb.ninodes.toNat ≤ 2 ^ 16
  root_lt : 1 < sb.ninodes.toNat

/-- `b` is a data block of some group. -/
def IsData (sb : Superblock) (b : ℕ) : Prop :=
  sb.start ≤ b ∧ b < sb.limit ∧ sb.inodeBlocks < (b - sb.start) % sb.bpg.toNat

instance (sb : Superblock) (b : ℕ) : Decidable (IsData sb b) := by
  unfold IsData; infer_instance

/-- The bitmap bit of block `b`. -/
def usedBit (sb : Superblock) (D : Disk) (b : ℕ) : Bool :=
  (D (sb.bitmapBlock ((b - sb.start) / sb.bpg.toNat))).bit ((b - sb.start) % sb.bpg.toNat)

/-- The blocks of the groups whose bit is clear. -/
def freeBlocks (sb : Superblock) (D : Disk) : Finset ℕ :=
  (Finset.Ico sb.start sb.limit).filter fun b => usedBit sb D b = false

section GroupGeom

variable {sb : Superblock} (h : GroupGeom sb) {g k : ℕ}
include h

omit h in
theorem groupStart_add_div (hk : k < sb.bpg.toNat) :
    (sb.groupStart g + k - sb.start) / sb.bpg.toNat = g ∧
      (sb.groupStart g + k - sb.start) % sb.bpg.toNat = k := by
  have hb : 0 < sb.bpg.toNat := by omega
  have hs : sb.groupStart g + k - sb.start = k + g * sb.bpg.toNat := by
    unfold Superblock.groupStart; omega
  rw [hs, add_mul_div_right _ _ hb, div_eq_of_lt hk, add_mul_mod_self_right, mod_eq_of_lt hk]
  omega

omit h in
/-- The bit of block `k` of group `g`. -/
theorem usedBit_groupStart_add {D : Disk} (hk : k < sb.bpg.toNat) :
    usedBit sb D (sb.groupStart g + k) = (D (sb.bitmapBlock g)).bit k := by
  obtain ⟨hd, hm⟩ := groupStart_add_div (g := g) hk
  rw [usedBit, hd, hm]

omit h in
theorem isData_groupStart_add (hg : g < sb.ngroups.toNat) (hk : k < sb.bpg.toNat)
    (hm : sb.inodeBlocks < k) : IsData sb (sb.groupStart g + k) := by
  refine ⟨?_, Superblock.groupStart_add_lt hg hk, by rwa [(groupStart_add_div hk).2]⟩
  unfold Superblock.groupStart; omega

omit h in
theorem IsData.ne_bitmapBlock {b : ℕ} (hb : IsData sb b) (h : BitGeom sb) (g : ℕ) :
    b ≠ sb.bitmapBlock g := by
  rintro rfl
  have := hb.2.2
  rw [Superblock.bitmapBlock, (groupStart_add_div h.meta_le).2] at this
  exact lt_irrefl _ this

theorem IsData.ne_IBLOCK {b : ℕ} (hb : IsData sb b) {i : UInt32}
    (hi : i.toNat < sb.ngroups.toNat * sb.ipg.toNat) : b ≠ (IBLOCK i sb).toNat := by
  rintro rfl
  have hk := h.inode_offset_lt i
  have := hb.2.2
  rw [h.IBLOCK_toNat hi, (groupStart_add_div (hk.trans h.meta_le)).2] at this
  omega

end GroupGeom

/-! ### The block numbers of an inode -/

/-- Block numbers an inode can hold. -/
abbrev NHELD : ℕ := 141

/-- Place `k` of the block numbers of inode `d`: `addrs` first, then the entries
of the indirect block. -/
def holds (D : Disk) (d : Dinode) (k : ℕ) : UInt32 :=
  if h : k < 13 then d.addrs ⟨k, h⟩
  else if d.addrs (Fin.last NDIRECT) = 0 then 0
  else (D (d.addrs (Fin.last NDIRECT)).toNat).getU32 (4 * (k - 13))

/-- The place of the number of block `bn` of the file. -/
def dataPlace (bn : ℕ) : ℕ := if bn < NDIRECT then bn else bn + 1

/-- The block that holds block `bn` of the file, `0` if none does. -/
def blockAddr (D : Disk) (d : Dinode) (bn : ℕ) : UInt32 := holds D d (dataPlace bn)

section Holds

variable {D D' : Disk} {d d' : Dinode} {k : ℕ}

theorem holds_addr {i : Fin (NDIRECT + 1)} : holds D d i = d.addrs i := by
  rw [holds, dif_pos i.isLt]

theorem holds_indirect : holds D d NDIRECT = d.addrs (Fin.last NDIRECT) :=
  holds_addr (i := Fin.last NDIRECT)

/-- The numbers an inode holds depend on its indirect block only. -/
theorem holds_congr (h : d.addrs (Fin.last NDIRECT) ≠ 0 →
      D' (d.addrs (Fin.last NDIRECT)).toNat = D (d.addrs (Fin.last NDIRECT)).toNat) :
    holds D' d k = holds D d k := by
  unfold holds
  split_ifs with hk h0
  · rfl
  · rfl
  · rw [h h0]

theorem holds_congr_addrs (h : d'.addrs = d.addrs) : holds D d' k = holds D d k := by
  rw [holds, holds, h]

theorem holds_eq_zero (h : ∀ i, d.addrs i = 0) : holds D d k = 0 := by
  unfold holds
  split_ifs with hk h0
  · exact h _
  · rfl
  · exact absurd (h _) h0

/-- An inode that has lost some of its addresses holds a part of its numbers. -/
theorem holds_shrink (h : ∀ i, d'.addrs i = 0 ∨ d'.addrs i = d.addrs i) :
    holds D d' k = 0 ∨ holds D d' k = holds D d k := by
  unfold holds
  split_ifs with hk h0 h1 h2
  · exact h _
  · exact .inl rfl
  · exact .inl rfl
  · rcases h (Fin.last NDIRECT) with h' | h'
    · exact absurd h' h0
    · exact absurd (h'.trans h2) h0
  · rcases h (Fin.last NDIRECT) with h' | h'
    · exact absurd h' h0
    · exact .inr (by rw [h'])

/-- A number that such an inode holds on one disk is in the same place on any. -/
theorem holds_of_shrink (h : ∀ i, d'.addrs i = 0 ∨ d'.addrs i = d.addrs i)
    (h0 : holds D' d' k ≠ 0) : holds D d' k = holds D d k := by
  unfold holds at *
  by_cases hk : k < 13
  · simp only [dif_pos hk] at *
    exact (h _).resolve_left h0
  · simp only [dif_neg hk] at *
    by_cases hl : d'.addrs (Fin.last NDIRECT) = 0
    · rw [if_pos hl] at h0
      exact absurd rfl h0
    · rw [(h (Fin.last NDIRECT)).resolve_left hl]

end Holds

variable {d : Dinode}

/-- The numbers of an inode after an address was set that was not; the entries
of a new indirect block are zero. -/
theorem holds_setAddr {D : Disk} {j : Fin (NDIRECT + 1)} {a : UInt32}
    (h0 : d.addrs j = 0) (hz : D a.toNat = Buf.zero) (k : ℕ) :
    holds D (d.setAddr j a) k = if k = j then a else holds D d k := by
  by_cases hk : k < 13
  · simp only [holds, dif_pos hk, Dinode.setAddr_addrs, Fin.ext_iff]
  · have hkj : k ≠ j := fun he => hk (he ▸ j.isLt)
    rw [if_neg hkj, holds, holds, dif_neg hk, dif_neg hk, Dinode.setAddr_addrs]
    by_cases hj : Fin.last NDIRECT = j
    · subst hj
      rw [if_pos rfl, if_pos h0, hz, Buf.getU32_zero, ite_self]
    · rw [if_neg hj]

/-- The numbers of an inode after an entry of its indirect block was set. -/
theorem holds_putEntry {D : Disk} {j : ℕ} {ind a : UInt32}
    (hind : d.addrs (Fin.last NDIRECT) = ind) (h0 : ind ≠ 0) (hj : j < NINDIRECT) (k : ℕ) :
    holds (Function.update D ind.toNat ((D ind.toNat).putU32 (4 * j) a)) d k =
      if k = 13 + j then a else holds D d k := by
  simp only [NINDIRECT] at hj
  by_cases hk : k < 13
  · rw [holds, holds, dif_pos hk, dif_pos hk, if_neg (by omega)]
  · rw [holds, holds, dif_neg hk, dif_neg hk, hind, if_neg h0, if_neg h0, update_self]
    split_ifs with hkj
    · rw [hkj, Nat.add_sub_cancel_left, Buf.getU32_putU32 (by simp only [BSIZE]; omega)]
    · exact Buf.getU32_putU32_of_ne (by omega)

/-- An inode holds no further numbers. -/
theorem holds_of_ge {D : Disk} {k : ℕ} (h : NHELD ≤ k) : holds D d k = 0 := by
  simp only [NHELD] at h
  rw [holds, dif_neg (by omega)]
  split_ifs
  · rfl
  · exact Buf.getU32_of_le (by simp only [BSIZE]; omega)

/-- Byte `x` of the file: `0` where no block is mapped. -/
def content (D : Disk) (d : Dinode) (x : ℕ) : UInt8 :=
  if blockAddr D d (x / BSIZE) = 0 then 0
  else (D (blockAddr D d (x / BSIZE)).toNat).byte (x % BSIZE)

/-- Block `bn` of the file is the same one with the same bytes, or it has been
mapped to a zeroed block. -/
def SamePage (D D' : Disk) (d d' : Dinode) (bn : ℕ) : Prop :=
  (blockAddr D' d' bn = blockAddr D d bn ∧ (blockAddr D d bn ≠ 0 →
    D' (blockAddr D d bn).toNat = D (blockAddr D d bn).toNat)) ∨
  (blockAddr D d bn = 0 ∧ D' (blockAddr D' d' bn).toNat = Buf.zero)

section Content

variable {D D' D'' : Disk} {d d' d'' : Dinode} {bn : ℕ}

theorem SamePage.refl : SamePage D D d d bn := .inl ⟨rfl, fun _ => rfl⟩

theorem SamePage.trans (h : SamePage D D' d d' bn) (h' : SamePage D' D'' d' d'' bn) :
    SamePage D D'' d d'' bn := by
  rcases h with ⟨ha, hD⟩ | ⟨h0, hz⟩ <;> rcases h' with ⟨ha', hD'⟩ | ⟨h0', hz'⟩
  · rw [ha] at ha' hD'
    exact .inl ⟨ha', fun hne => (hD' hne).trans (hD hne)⟩
  · exact .inr ⟨ha ▸ h0', hz'⟩
  · by_cases hne : blockAddr D' d' bn = 0
    · exact .inl ⟨ha'.trans (hne.trans h0.symm), fun h => absurd h0 h⟩
    · exact .inr ⟨h0, by rw [ha', hD' hne, hz]⟩
  · exact .inr ⟨h0, hz'⟩

/-- A file whose pages are the same has the same bytes. -/
theorem content_eq (h : ∀ bn, SamePage D D' d d' bn) : content D' d' = content D d := by
  funext x
  unfold content
  rcases h (x / BSIZE) with ⟨ha, hD⟩ | ⟨h0, hz⟩
  · rw [ha]
    split_ifs with hne
    · rfl
    · rw [hD hne]
  · rw [if_pos h0, hz, Buf.byte_zero, ite_self]

theorem dataPlace_lt {bn : ℕ} (h : bn < MAXFILE) : dataPlace bn < NHELD := by
  unfold dataPlace
  simp only [MAXFILE, NDIRECT, NHELD] at *
  split_ifs <;> omega

theorem dataPlace_inj {bn bn' : ℕ} (h : dataPlace bn = dataPlace bn') : bn = bn' := by
  unfold dataPlace at h
  split_ifs at h <;> omega

theorem dataPlace_ne_indirect (bn : ℕ) : dataPlace bn ≠ NDIRECT := by
  unfold dataPlace
  split_ifs <;> omega

/-- A file has no blocks past `MAXFILE`. -/
theorem blockAddr_of_ge (h : MAXFILE ≤ bn) : blockAddr D d bn = 0 := by
  refine holds_of_ge ?_
  unfold dataPlace
  simp only [MAXFILE, NDIRECT, NHELD] at *
  rw [if_neg (by omega)]
  omega

/-- A file that gets a zeroed block has the same pages. -/
theorem samePage_insert {q : ℕ} {b : UInt32} (hq : holds D d q = 0) (hz : D' b.toNat = Buf.zero)
    (hh : ∀ l, holds D' d' l = if l = q then b else holds D d l)
    (hD : ∀ l < NHELD, l ≠ NDIRECT → holds D d l ≠ 0 →
      D' (holds D d l).toNat = D (holds D d l).toNat) (bn : ℕ) : SamePage D D' d d' bn := by
  have hpage := hh (dataPlace bn)
  split_ifs at hpage with hbn
  · refine .inr ⟨by rw [blockAddr, hbn, hq], ?_⟩
    rw [blockAddr, hpage, hz]
  · refine .inl ⟨hpage, fun h0 => ?_⟩
    by_cases hlt : bn < MAXFILE
    · exact hD _ (dataPlace_lt hlt) (dataPlace_ne_indirect bn) h0
    · exact absurd (blockAddr_of_ge (Nat.le_of_not_lt hlt)) h0

end Content

/-! ### The books -/

/-- Inode `i` is allocated. -/
def Live (sb : Superblock) (cur : UInt32 → Dinode) (i : UInt32) : Prop :=
  i.toNat < sb.ninodes.toNat ∧ (cur i).type ≠ 0

/-- Some allocated inode holds block `b`. -/
def Held (sb : Superblock) (D : Disk) (cur : UInt32 → Dinode) (b : UInt32) : Prop :=
  ∃ i, Live sb cur i ∧ ∃ k < NHELD, holds D (cur i) k = b

/-- **The books are right**: every block number held by an allocated inode is a
used data block, and no number is held in two places. -/
structure Accounted (sb : Superblock) (D : Disk) (used : ℕ → Prop) (cur : UInt32 → Dinode) :
    Prop where
  data : ∀ i, Live sb cur i → ∀ k < NHELD, holds D (cur i) k ≠ 0 →
    IsData sb (holds D (cur i) k).toNat ∧ used (holds D (cur i) k).toNat
  inj : ∀ i j, Live sb cur i → Live sb cur j → ∀ k < NHELD, ∀ l < NHELD,
    holds D (cur i) k ≠ 0 → holds D (cur i) k = holds D (cur j) l → i = j ∧ k = l

/-- The two disks have the same indirect block of inode `d`. -/
def SameIndirect (D D' : Disk) (d : Dinode) : Prop :=
  d.addrs (Fin.last NDIRECT) ≠ 0 →
    D' (d.addrs (Fin.last NDIRECT)).toNat = D (d.addrs (Fin.last NDIRECT)).toNat

/-- The two disks have the same blocks of inode `d`. -/
def SameBlocks (D D' : Disk) (d : Dinode) : Prop :=
  ∀ k < NHELD, holds D d k ≠ 0 → D' (holds D d k).toNat = D (holds D d k).toNat

theorem SameBlocks.indirect {D D' : Disk} (h : SameBlocks D D' d) :
    SameIndirect D D' d := fun h0 => by
  have := h NDIRECT (by decide)
  rw [holds_indirect] at this
  exact this h0

theorem SameBlocks.data {D D' : Disk} (h : SameBlocks D D' d) {bn : ℕ} (hbn : bn < MAXFILE)
    (h0 : blockAddr D d bn ≠ 0) : D' (blockAddr D d bn).toNat = D (blockAddr D d bn).toNat :=
  h _ (dataPlace_lt hbn) h0

theorem SameBlocks.samePage {D D' : Disk} (h : SameBlocks D D' d) (bn : ℕ) :
    SamePage D D' d d bn := by
  refine .inl ⟨holds_congr h.indirect, fun h0 => ?_⟩
  by_cases hbn : bn < MAXFILE
  · exact h.data hbn h0
  · exact absurd (blockAddr_of_ge (Nat.le_of_not_lt hbn)) h0

theorem SameBlocks.trans {D D' D'' : Disk} (h : SameBlocks D D' d)
    (h' : SameBlocks D' D'' d) : SameBlocks D D'' d := fun l hl h0 => by
  have := h' l hl
  rw [holds_congr h.indirect] at this
  rw [this h0, h l hl h0]

/-- The same blocks have the same bytes. -/
theorem SameBlocks.content {D D' : Disk} (h : SameBlocks D D' d) :
    content D' d = content D d := content_eq h.samePage

variable {sb : Superblock} {D D' : Disk} {used used' : ℕ → Prop} {cur : UInt32 → Dinode}

/-- Inodes other than `i` are allocated whether or not inode `i` is changed. -/
theorem Live.of_update {i j : UInt32} (h : Live sb (Function.update cur i d) j)
    (hji : j ≠ i) : Live sb cur j := by
  simpa [Live, update_of_ne hji] using h

namespace Accounted

/-- **No indirect block is touched**, and what is held stays used. -/
theorem frame (h : Accounted sb D used cur)
    (hD : ∀ i, Live sb cur i → SameIndirect D D' (cur i))
    (hused : ∀ i, Live sb cur i → ∀ k < NHELD, holds D (cur i) k ≠ 0 →
      used' (holds D (cur i) k).toNat) :
    Accounted sb D' used' cur where
  data i hi k hk h0 := by
    rw [holds_congr (hD i hi)] at h0 ⊢
    exact ⟨(h.data i hi k hk h0).1, hused i hi k hk h0⟩
  inj i j hi hj k hk l hl h0 he := by
    rw [holds_congr (hD i hi)] at h0 he
    rw [holds_congr (hD j hj)] at he
    exact h.inj i j hi hj k hk l hl h0 he

variable {i : UInt32} {d : Dinode}

/-- **One inode is changed.**  The indirect blocks of the others are left alone
and what they hold stays used; each number the changed inode holds is a used
data block, held once by it and not by another. -/
theorem update (h : Accounted sb D used cur)
    (hD : ∀ j ≠ i, Live sb cur j → SameIndirect D D' (cur j))
    (hused : ∀ j ≠ i, Live sb cur j → ∀ k < NHELD, holds D (cur j) k ≠ 0 →
      used' (holds D (cur j) k).toNat)
    (hself : i.toNat < sb.ninodes.toNat → d.type ≠ 0 → ∀ k < NHELD, holds D' d k ≠ 0 →
      IsData sb (holds D' d k).toNat ∧ used' (holds D' d k).toNat ∧
      (∀ l < NHELD, holds D' d l = holds D' d k → l = k) ∧
      ∀ j ≠ i, Live sb cur j → ∀ l < NHELD, holds D (cur j) l ≠ holds D' d k) :
    Accounted sb D' used' (Function.update cur i d) := by
  have hother : ∀ {j k}, Live sb (Function.update cur i d) j → j ≠ i →
      holds D' (Function.update cur i d j) k = holds D (cur j) k := fun {j k} hj hji => by
    rw [update_of_ne hji]
    exact holds_congr (hD j hji (hj.of_update hji))
  have hthis : ∀ k, Live sb (Function.update cur i d) i → k < NHELD → holds D' d k ≠ 0 → _ :=
    fun k hi hk h0 => hself hi.1 (by simpa [Live] using hi.2) k hk h0
  constructor
  · intro j hj k hk h0
    by_cases hji : j = i
    · subst hji
      rw [update_self] at h0 ⊢
      exact ⟨(hthis k hj hk h0).1, (hthis k hj hk h0).2.1⟩
    · rw [hother hj hji] at h0 ⊢
      exact ⟨(h.data j (hj.of_update hji) k hk h0).1, hused j hji (hj.of_update hji) k hk h0⟩
  · intro j m hj hm k hk l hl h0 he
    by_cases hji : j = i <;> by_cases hmi : m = i
    · subst hji hmi
      rw [update_self] at h0 he
      exact ⟨rfl, ((hthis k hj hk h0).2.2.1 l hl he.symm).symm⟩
    · subst hji
      rw [hother hm hmi] at he
      rw [update_self] at h0 he
      exact absurd he.symm ((hthis k hj hk h0).2.2.2 m hmi (hm.of_update hmi) l hl)
    · subst hmi
      rw [hother hj hji] at h0 he
      rw [update_self] at he
      exact absurd he ((hthis l hm hl (he ▸ h0)).2.2.2 j hji (hj.of_update hji) k hk)
    · rw [hother hj hji] at h0 he
      rw [hother hm hmi] at he
      exact h.inj j m (hj.of_update hji) (hm.of_update hmi) k hk l hl h0 he

/-- An inode gives up some of its addresses, or changes its other fields. -/
theorem shrink (h : Accounted sb D used cur)
    (hd : d.type ≠ 0 → d.type = (cur i).type ∧
      ∀ j, d.addrs j = 0 ∨ d.addrs j = (cur i).addrs j) :
    Accounted sb D used (Function.update cur i d) := by
  refine h.update (fun _ _ _ _ => rfl) (fun j _ hj k hk h0 => (h.data j hj k hk h0).2)
    fun hin hty k hk h0 => ?_
  obtain ⟨htype, haddrs⟩ := hd hty
  have hi : Live sb cur i := ⟨hin, htype ▸ hty⟩
  have he := (holds_shrink (D := D) (k := k) haddrs).resolve_left h0
  have h0' : holds D (cur i) k ≠ 0 := he ▸ h0
  refine ⟨he ▸ (h.data i hi k hk h0').1, he ▸ (h.data i hi k hk h0').2, fun l hl hl' => ?_,
    fun j hji hj l hl hl' => hji (h.inj i j hi hj k hk l hl h0' (he ▸ hl'.symm)).1.symm⟩
  have hel := (holds_shrink (D := D) (k := l) haddrs).resolve_left (hl' ▸ h0)
  exact (h.inj i i hi hi k hk l hl h0' (by rw [← hel, ← he, hl'])).2.symm

/-- An inode takes a fresh block into place `k`. -/
theorem insert (h : Accounted sb D used cur) {k : ℕ} {a : UInt32} (hi : Live sb cur i)
    (hka : holds D' d k = a) (hsame : ∀ l < NHELD, l ≠ k → holds D' d l = holds D (cur i) l)
    (hD : ∀ j ≠ i, Live sb cur j → SameIndirect D D' (cur j)) (ha : IsData sb a.toNat)
    (hu : used a.toNat) (hfresh : ¬ Held sb D cur a) :
    Accounted sb D' used (Function.update cur i d) := by
  refine h.update hD (fun j _ hj k hk h0 => (h.data j hj k hk h0).2) fun _ _ l hl h0 => ?_
  have hnot : ∀ j m, Live sb cur j → m < NHELD → holds D (cur j) m ≠ a :=
    fun j m hj hm he => hfresh ⟨j, hj, m, hm, he⟩
  by_cases hlk : l = k
  · subst hlk
    refine ⟨hka ▸ ha, hka ▸ hu, fun m hm hme => ?_, fun j _ hj m hm => hka ▸ hnot j m hj hm⟩
    by_contra hml
    rw [hsame m hm hml, hka] at hme
    exact hnot i m hi hm hme
  · rw [hsame l hl hlk] at h0 ⊢
    refine ⟨(h.data i hi l hl h0).1, (h.data i hi l hl h0).2, fun m hm hme => ?_,
      fun j hji hj m hm hme => hji (h.inj j i hj hi m hm l hl (hme ▸ h0) hme).1⟩
    by_cases hmk : m = k
    · subst hmk
      exact absurd (hme.symm.trans hka) (hnot i l hi hl)
    · rw [hsame m hm hmk] at hme
      exact (h.inj i i hi hi m hm l hl (hme ▸ h0) hme).2

end Accounted

end Xv6.Fs
