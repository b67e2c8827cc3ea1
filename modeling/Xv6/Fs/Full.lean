/-
# `bmap` on a full disk

`balloc` returns 0 when no block is free, and `bmap` goes on with that 0.  For a
direct block this is harmless.  For a block behind the indirect block it is not:
when the indirect block cannot be allocated `bmap` takes block 0 for it, when it
can but the data block cannot the file keeps an indirect block that nobody uses,
and when it is there already it is passed to `log_write` although nothing in it
has changed.

`bmap_noop_iff` says for which files and which numbers of free blocks a `bmap`
that returns 0 changes nothing.
-/

import Xv6.Fs.Balloc
import Xv6.Fs.Bmap

namespace Xv6.Fs

open Finset Function Lib Nat State

/-- The file system is as before: the inodes in memory, all blocks, and the set of blocks passed to
`log_write`. -/
structure Unchanged (s s' : State) : Prop where
  icache : s'.icache = s.icache
  disk : s'.disk = s.disk
  logged : ∀ b, b ∈ s'.logged ↔ b ∈ s.logged

/-- The state with other contents of block 0. -/
def State.boot (s : State) (blk : Block) : State := { s with disk := update s.disk 0 blk }

theorem boot_disk (s : State) (blk : Block) : (s.boot blk).disk = update s.disk 0 blk := rfl

/-- What block 0 holds makes no difference to `m`. -/
def Blind {α : Type} (m : Prog State α) (s : State) : Prop :=
  ∀ blk, m (s.boot blk) = (m s).map fun r => (r.1, r.2.boot blk)

/-- A `bmap` that returns 0 changes nothing, and block 0 is not taken for an indirect block. -/
def BmapNoop (s : State) (k : Slot) (bn : ℕ) : Prop :=
  (∀ s', bmap k bn s = .ok (0, s') → Unchanged s s') ∧ Blind (bmap k bn) s

/-- There are blocks enough for block `bn` of the file, or the indirect block has been logged
already. -/
def Spared (sb : Superblock) (s : State) (k : Slot) (bn : ℕ) : Prop :=
  NDIRECT ≤ bn →
    if s.indirect k = 0 then 2 ≤ (freeBlocks sb s.disk).card
    else s.addr k bn ≠ 0 ∨ (freeBlocks sb s.disk).Nonempty ∨ s.indirect k ∈ s.logged

variable {sb : Superblock} {s s' : State} {k : Slot} {b ind : UInt32} {blk : Block} {j : ℕ}

/-! ### What the parts of `bmap` return -/

theorem addrOrAlloc_old {i : Fin (NDIRECT + 1)} (h : (s.icache k).addrs i ≠ 0) :
    addrOrAlloc k i s = .ok ((s.icache k).addrs i, s) := by
  have hget : getInode k s = .ok (s.icache k, s) := rfl
  rw [addrOrAlloc, bind_of_ok hget]
  rw [if_neg h]
  rfl

theorem addrOrAlloc_new {i : Fin (NDIRECT + 1)} (h : (s.icache k).addrs i = 0)
    (hb : balloc s = .ok (b, s')) : addrOrAlloc k i s = .ok (b, s'.setInode k (·.setAddr i b)) := by
  have hget : getInode k s = .ok (s.icache k, s) := rfl
  rw [addrOrAlloc, bind_of_ok hget]
  rw [if_pos h, bind_of_ok hb]
  rfl

theorem entryOrAlloc_old (h : (s.disk ind.toNat).getU32 (4 * j) ≠ 0) :
    entryOrAlloc ind j s = .ok ((s.disk ind.toNat).getU32 (4 * j), s) := by
  have hget : bread ind s = .ok (s.disk ind.toNat, s) := rfl
  rw [entryOrAlloc, bind_of_ok hget]
  rw [if_neg h]
  rfl

theorem entryOrAlloc_new (h : (s.disk ind.toNat).getU32 (4 * j) = 0)
    (hb : balloc s = .ok (b, s')) :
    entryOrAlloc ind j s =
      .ok (b, s'.store ind ((s'.disk ind.toNat).putU32 (4 * j) b)) := by
  have hget : bread ind s = .ok (s.disk ind.toNat, s) := rfl
  rw [entryOrAlloc, bind_of_ok hget]
  rw [if_pos h, bind_of_ok hb]
  rfl

/-! ### Block 0 -/

/-- A program made of two that do not look at block 0 does not look at it. -/
theorem Blind.bind {α β : Type} {m : Prog State α} {f : α → Prog State β} (hm : Blind m s)
    (hf : ∀ a s', m s = .ok (a, s') → Blind (f a) s') : Blind (m >>= f) s := by
  intro blk
  have hblk := hm blk
  cases hs : m s with
  | error e =>
    rw [hs] at hblk
    rw [bind_of_error hs, bind_of_error hblk]
    rfl
  | ok r =>
    obtain ⟨a, s'⟩ := r
    rw [hs] at hblk
    rw [bind_of_ok hs, bind_of_ok hblk]
    exact hf a s' hs blk

theorem boot_store (hb : b ≠ 0) (x : Block) : (s.boot blk).store b x = (s.store b x).boot blk := by
  have hbn : b.toNat ≠ 0 := fun hc => hb (UInt32.toNat_inj.1 hc)
  rw [store, store, boot, boot]
  dsimp only
  rw [update_comm hbn]

variable (h : Ready sb s.disk) (h2 : 2 ≤ sb.start)
include h h2

omit h in
theorem bitmapBlock_ne_zero (g : ℕ) : sb.bitmapBlock g ≠ 0 := by
  unfold Superblock.bitmapBlock Superblock.groupStart
  omega

theorem ready_boot : Ready sb (s.boot blk).disk := by
  refine ⟨h.geom, h.apart, ?_, fun g hg l hl => ?_⟩
  · rw [boot_disk, update_of_ne (by decide), h.super]
  · rw [boot_disk, update_of_ne (bitmapBlock_ne_zero h2 g), h.metaBits g hg l hl]

omit h in
theorem freeBlocks_boot : freeBlocks sb (s.boot blk).disk = freeBlocks sb s.disk := by
  rw [freeBlocks, freeBlocks]
  refine filter_congr fun c _ => ?_
  rw [boot_disk, usedBit_congr fun g => update_of_ne (bitmapBlock_ne_zero h2 g) _ _]

omit h in
theorem boot_taken (hb : b ≠ 0) : (s.boot blk).taken sb b = (s.taken sb b).boot blk := by
  have hbn : b.toNat ≠ 0 := fun hc => hb (UInt32.toNat_inj.1 hc)
  rw [taken, taken, boot, boot, setUsed, setUsed]
  dsimp only
  rw [update_of_ne (bitmapBlock_ne_zero h2 _), update_comm hbn,
    update_comm (bitmapBlock_ne_zero h2 _)]

omit h2 in
/-- `balloc` returns, and leaves the disk ready. -/
theorem balloc_ready : ∃ b s', balloc s = .ok (b, s') ∧ Ready sb s'.disk := by
  rcases balloc_cases h.geom h.super with ⟨-, hs⟩ | ⟨b, hb, -, hs⟩
  · exact ⟨0, _, hs, h⟩
  · have hdata := h.isData hb
    exact ⟨b, _, hs, (h.setUsed hdata true).update hdata _⟩

theorem balloc_blind : Blind balloc s := by
  intro blk
  have hboot : Ready sb (s.boot blk).disk := ready_boot h h2
  rcases balloc_cases h.geom h.super with ⟨hfull, hs⟩ | ⟨b, hb, hmin, hs⟩ <;>
    rcases balloc_cases hboot.geom hboot.super with ⟨hfull', hs'⟩ | ⟨b', hb', hmin', hs'⟩
  · rw [hs, hs']
    rfl
  · rw [freeBlocks_boot h2, hfull] at hb'
    exact absurd hb' (notMem_empty _)
  · rw [freeBlocks_boot h2] at hfull'
    rw [hfull'] at hb
    exact absurd hb (notMem_empty _)
  · rw [freeBlocks_boot h2] at hb' hmin'
    have hbb : b' = b := UInt32.toNat_inj.1 (le_antisymm (hmin' _ hb) (hmin _ hb'))
    rw [hs, hs', hbb, boot_taken h2 (h.isData hb).ne_zero]
    rfl

theorem addrOrAlloc_blind (i : Fin (NDIRECT + 1)) : Blind (addrOrAlloc k i) s := by
  intro blk
  by_cases h0 : (s.icache k).addrs i = 0
  · obtain ⟨b, s', hs, -⟩ := balloc_ready h
    have hblk := balloc_blind h h2 blk
    rw [hs] at hblk
    rw [addrOrAlloc_new h0 hs, addrOrAlloc_new (s := s.boot blk) h0 hblk]
    rfl
  · rw [addrOrAlloc_old h0, addrOrAlloc_old (s := s.boot blk) h0]
    rfl

theorem entryOrAlloc_blind (hind : ind ≠ 0) (j : ℕ) : Blind (entryOrAlloc ind j) s := by
  intro blk
  have hne : ind.toNat ≠ 0 := fun hc => hind (UInt32.toNat_inj.1 hc)
  have hread : ∀ s : State, (s.boot blk).disk ind.toNat = s.disk ind.toNat := fun s =>
    update_of_ne hne _ _
  by_cases h0 : (s.disk ind.toNat).getU32 (4 * j) = 0
  · obtain ⟨b, s', hs, -⟩ := balloc_ready h
    have hblk := balloc_blind h h2 blk
    rw [hs] at hblk
    rw [entryOrAlloc_new h0 hs, entryOrAlloc_new (s := s.boot blk) (by rwa [hread]) hblk]
    rw [hread, boot_store hind]
    rfl
  · rw [entryOrAlloc_old h0, entryOrAlloc_old (s := s.boot blk) (by rwa [hread]), hread]
    rfl

/-! ### The cases -/

theorem bmapNoop_direct {bn : ℕ} (hbn : bn < NDIRECT) : BmapNoop s k bn := by
  rw [BmapNoop, bmap_direct hbn]
  refine ⟨fun s' hs' => ?_, addrOrAlloc_blind h h2 _⟩
  by_cases h0 : (s.icache k).addrs ⟨bn, lt_succ_of_lt hbn⟩ = 0
  · rcases balloc_cases h.geom h.super with ⟨-, hs⟩ | ⟨b, hb, -, hs⟩
    · rw [addrOrAlloc_new h0 hs, setInode_eq_self (Inode.setAddr_self h0)] at hs'
      cases hs'
      exact ⟨rfl, rfl, fun _ => Iff.rfl⟩
    · rw [addrOrAlloc_new h0 hs] at hs'
      cases hs'
      exact absurd rfl (h.isData hb).ne_zero
  · rw [addrOrAlloc_old h0, Except.ok.injEq, Prod.mk.injEq] at hs'
    exact absurd hs'.1 h0

omit h h2 in
theorem bmap_of_indirect (hj : j < NINDIRECT) (hi : s.indirect k ≠ 0) :
    bmap k (NDIRECT + j) s = entryOrAlloc (s.indirect k) j s := by
  rw [bmap_indirect hj]
  exact bind_of_ok (addrOrAlloc_old hi)

/-- With an indirect block the one allocation must succeed, or the indirect block has been logged.
-/
theorem bmapNoop_entry (hj : j < NINDIRECT) (hi : s.indirect k ≠ 0) :
    BmapNoop s k (NDIRECT + j) ↔ s.addr k (NDIRECT + j) ≠ 0 ∨ (freeBlocks sb s.disk).Nonempty ∨
      s.indirect k ∈ s.logged := by
  have hblind : Blind (bmap k (NDIRECT + j)) s := by
    rw [bmap_indirect hj]
    refine (addrOrAlloc_blind h h2 _).bind fun a s' hs' => ?_
    rw [addrOrAlloc_old hi] at hs'
    cases hs'
    exact entryOrAlloc_blind h h2 hi j
  rw [BmapNoop, bmap_of_indirect hj hi, addr_indirect hi]
  by_cases h0 : (s.disk (s.indirect k).toNat).getU32 (4 * j) = 0
  · rcases balloc_cases h.geom h.super with ⟨hfull, hs⟩ | ⟨b, hb, -, hs⟩
    · rw [entryOrAlloc_new h0 hs, hfull]
      constructor
      · rintro ⟨hno, -⟩
        have hlog := (hno _ rfl).logged (s.indirect k)
        exact .inr (.inr (hlog.1 (List.mem_append_right _ (List.mem_singleton_self _))))
      · intro hcase
        have hlog := (hcase.resolve_left (not_not.2 h0)).resolve_left not_nonempty_empty
        refine ⟨fun s' hs' => ?_, hblind⟩
        cases hs'
        refine ⟨rfl, ?_, fun b => ?_⟩
        · rw [store_disk, print_disk, ← h0, Buf.putU32_getU32, update_eq_self]
        · rw [store_logged, List.mem_append, List.mem_singleton]
          constructor
          · rintro (hb | rfl)
            · exact hb
            · exact hlog
          · exact .inl
    · rw [entryOrAlloc_new h0 hs]
      refine ⟨fun _ => .inr (.inl ⟨_, hb⟩), fun _ => ⟨fun s' hs' => ?_, hblind⟩⟩
      cases hs'
      exact absurd rfl (h.isData hb).ne_zero
  · rw [entryOrAlloc_old h0]
    refine ⟨fun _ => .inl h0, fun _ => ⟨fun s' hs' => ?_, hblind⟩⟩
    rw [Except.ok.injEq, Prod.mk.injEq] at hs'
    exact absurd hs'.1 h0

omit h2 in
/-- On a full disk a file without indirect block reads block 0 instead. -/
theorem bmap_full (hj : j < NINDIRECT) (hi : s.indirect k = 0)
    (hfull : freeBlocks sb s.disk = ∅) :
    ∃ s', bmap k (NDIRECT + j) s = .ok ((s.disk 0).getU32 (4 * j), s') := by
  have hballoc : ∀ s' : State, s'.disk = s.disk →
      balloc s' = .ok (0, s'.print "balloc: out of blocks") := by
    intro s' hs'
    rcases balloc_cases h.geom (hs' ▸ h.super) with ⟨-, hs⟩ | ⟨b, hb, -⟩
    · exact hs
    · rw [hs', hfull] at hb
      exact absurd hb (notMem_empty _)
  have haddr := addrOrAlloc_new hi (hballoc s rfl)
  rw [setInode_eq_self (Inode.setAddr_self hi)] at haddr
  rw [bmap_indirect hj, bind_of_ok haddr]
  have hread : (s.print "balloc: out of blocks").disk (0 : UInt32).toNat = s.disk 0 := rfl
  rw [← hread]
  by_cases h0 : ((s.print "balloc: out of blocks").disk (0 : UInt32).toNat).getU32 (4 * j) = 0
  · rw [entryOrAlloc_new h0 (hballoc _ rfl), h0]
    exact ⟨_, rfl⟩
  · exact ⟨_, entryOrAlloc_old h0⟩

/-- Without an indirect block both allocations must succeed. -/
theorem bmapNoop_noIndirect (hj : j < NINDIRECT) (hi : s.indirect k = 0) :
    BmapNoop s k (NDIRECT + j) ↔ 2 ≤ (freeBlocks sb s.disk).card := by
  rcases balloc_cases h.geom h.super with ⟨hfull, -⟩ | ⟨b, hb, -, hs⟩
  · -- block 0 is read: its contents make a difference
    rw [hfull, card_empty]
    refine ⟨fun hno => ?_, fun hc => absurd hc (by decide)⟩
    obtain ⟨s1, h1⟩ := bmap_full h hj hi hfull
    have hread : ∀ blk : Block, blk.getU32 (4 * j) = (s.disk 0).getU32 (4 * j) := by
      intro blk
      obtain ⟨s', hs'⟩ := bmap_full (s := s.boot blk) (ready_boot h h2) hj hi
        ((freeBlocks_boot h2).trans hfull)
      rw [hno.2 blk, h1, boot_disk, update_self] at hs'
      exact (congrArg Prod.fst (Except.ok.inj hs')).symm
    have hone := (hread (Buf.zero.putU32 (4 * j) 1)).trans (hread Buf.zero).symm
    rw [Buf.getU32_putU32 (by simp only [BSIZE, NINDIRECT] at *; omega), Buf.getU32_zero] at hone
    exact absurd hone (by decide)
  · have hdata := h.isData hb
    have hcard := card_erase_of_mem hb
    have haddr := addrOrAlloc_new hi hs
    have hready : Ready sb (s.taken sb b).disk := (h.setUsed hdata true).update hdata _
    have hzero : ((s.taken sb b).disk b.toNat).getU32 (4 * j) = 0 := by
      rw [taken_disk, update_self, Buf.getU32_zero]
    generalize hs1 : (s.taken sb b).setInode k (·.setAddr (Fin.last NDIRECT) b) = s1 at haddr
    have hdisk : s1.disk = (s.taken sb b).disk := by
      rw [← hs1]
      rfl
    have hnew : (s1.icache k).addrs (Fin.last NDIRECT) = b := by
      rw [← hs1, setInode_self]
      exact (Dinode.setAddr_addrs _ _ _ b).trans (if_pos rfl)
    rw [← hdisk] at hready hzero
    rw [BmapNoop, bmap_indirect hj, bind_of_ok haddr]
    rcases balloc_cases hready.geom hready.super with ⟨hfull, hs'⟩ | ⟨b', hb', -, hs'⟩
    · -- the file keeps the new indirect block
      rw [hdisk, freeBlocks_taken h.geom hdata] at hfull
      rw [hfull, card_empty] at hcard
      rw [entryOrAlloc_new hzero hs']
      refine ⟨fun hno => ?_, fun hc => absurd hc (by omega)⟩
      have hsame : s1.icache = s.icache := (hno.1 _ rfl).icache
      rw [hsame] at hnew
      exact absurd (hnew.symm.trans hi) hdata.ne_zero
    · rw [hdisk, freeBlocks_taken h.geom hdata] at hb'
      have hpos := card_pos.2 ⟨_, hb'⟩
      rw [entryOrAlloc_new hzero hs']
      refine ⟨fun _ => by omega, fun _ => ⟨fun s' he => ?_, ?_⟩⟩
      · cases he
        exact absurd rfl (h.isData (mem_of_mem_erase hb')).ne_zero
      · refine (addrOrAlloc_blind h h2 _).bind fun a s' ha => ?_
        rw [haddr] at ha
        cases ha
        exact entryOrAlloc_blind hready h2 hdata.ne_zero j

/-- **A `bmap` that returns 0 changes nothing exactly when it cannot fail half-way**: the block is a
direct one, or there are blocks enough for it, or the indirect block is there and has been logged
already. -/
theorem bmap_noop_iff {bn : ℕ} (hbn : bn < MAXFILE) : BmapNoop s k bn ↔ Spared sb s k bn := by
  by_cases hd : bn < NDIRECT
  · exact ⟨fun _ hc => absurd hd (not_lt.2 hc), fun _ => bmapNoop_direct h h2 hd⟩
  obtain ⟨j, rfl⟩ := Nat.exists_eq_add_of_le (Nat.le_of_not_lt hd)
  have hj : j < NINDIRECT := by
    simp only [MAXFILE, NDIRECT, NINDIRECT] at *
    omega
  rw [Spared]
  by_cases hi : s.indirect k = 0
  · rw [if_pos hi, bmapNoop_noIndirect h h2 hj hi]
    exact ⟨fun hc _ => hc, fun hc => hc (le_add_right _ _)⟩
  · rw [if_neg hi, bmapNoop_entry h h2 hj hi]
    exact ⟨fun hc _ => hc, fun hc => hc (le_add_right _ _)⟩

omit h h2

/-- The hypotheses of `bmap_noop_iff` are satisfiable: two blocks are free. -/
theorem bmap_noop_iff_small : BmapNoop smallState 0 NDIRECT := by
  refine (bmap_noop_iff ready_small (by decide) (by decide)).2 fun _ => ?_
  rw [if_pos (by decide)]
  decide +kernel

/-- The small file system with one free block left. -/
def oneLeft : State :=
  { smallState with
    disk := update smallState.disk 3 ((smallState.disk 3).setBit 2) }

/-- The last free block becomes the indirect block of a file that cannot use it. -/
theorem bmap_leaks : ∃ s', bmap 0 NDIRECT oneLeft = .ok (0, s') ∧
    (oneLeft.icache 0).addrs (Fin.last NDIRECT) = 0 ∧
    (s'.icache 0).addrs (Fin.last NDIRECT) = 5 ∧
    usedBit smallSb oneLeft.disk 5 = false ∧ usedBit smallSb s'.disk 5 = true ∧
    s'.logged = [3, 5, 5] := by
  have hrun : (match bmap 0 NDIRECT oneLeft with
      | .ok (r, s') => r == 0 && decide ((oneLeft.icache 0).addrs (Fin.last NDIRECT) = 0 ∧
          (s'.icache 0).addrs (Fin.last NDIRECT) = 5 ∧ usedBit smallSb oneLeft.disk 5 = false ∧
          usedBit smallSb s'.disk 5 = true ∧ s'.logged = [3, 5, 5])
      | .error _ => false) = true := by decide +kernel
  split at hrun
  · rename_i r s' hr
    rw [Bool.and_eq_true, beq_iff_eq, decide_eq_true_eq] at hrun
    obtain ⟨rfl, hrun⟩ := hrun
    exact ⟨s', hr, hrun⟩
  · cases hrun

end Xv6.Fs
