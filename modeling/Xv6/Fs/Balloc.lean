/-
# Allocating and freeing blocks

`balloc` addresses a bit by its group and its place in the group, `bfree`
computes both from the block number.  For every superblock whose bitmaps have
room for their bits (`BitGeom`) the two are inverse to each other: `balloc` takes
the lowest free block, and until somebody frees that block `bfree` finds its bit
(`balloc_bfree`), whatever other data blocks are taken and freed in between.

Both read the superblock from block 1 every time and trust the bits of the
groups' own blocks.  If such a bit is cleared, `balloc` hands out the bitmap
block itself and zeroes it (`bfree_metadata`).
-/

import Xv6.Fs.Blocks
import Xv6.Lib.Run

namespace Xv6.Fs

open Function Lib Superblock

/-- The disk has superblock `sb` in block 1, which is not a block of a group, and
the bits of every group's own blocks are set. -/
structure Ready (sb : Superblock) (D : Disk) : Prop where
  geom : BitGeom sb
  apart : sb.start ≤ 1 → sb.limit ≤ 1
  super : Superblock.ofBlock (D 1) = sb
  metaBits : ∀ g < sb.ngroups.toNat, ∀ k ≤ sb.inodeBlocks, (D (sb.bitmapBlock g)).bit k = true

/-- Among all bitmaps exactly the bit of block `b` is set to `v`. -/
def OneBit (sb : Superblock) (D D' : Disk) (b : ℕ) (v : Bool) : Prop :=
  ∀ g < sb.ngroups.toNat, ∀ k, (D' (sb.bitmapBlock g)).bit k =
    if k < sb.bpg.toNat ∧ sb.groupStart g + k = b then v else (D (sb.bitmapBlock g)).bit k

variable {sb : Superblock} {D D' : Disk} {s s' : State} {b c : UInt32} {v : Bool}

/-- The bitmap of a group is in the area. -/
theorem BitGeom.bitmapBlock_lt (h : BitGeom sb) {g : ℕ} (hg : g < sb.ngroups.toNat) :
    sb.start ≤ sb.bitmapBlock g ∧ sb.bitmapBlock g < sb.limit := by
  refine ⟨?_, groupStart_add_lt hg h.meta_le⟩
  unfold bitmapBlock groupStart
  omega

/-- Data blocks come after a bitmap block. -/
theorem IsData.ne_zero (h : IsData sb b.toNat) : b ≠ 0 := by
  rintro rfl
  have := h.2.2
  rw [show (0 : UInt32).toNat = 0 from rfl, Nat.zero_sub, Nat.zero_mod] at this
  exact absurd this (Nat.not_lt_zero _)

namespace Ready

variable (h : Ready sb D) {n : ℕ}
include h

/-- The superblock is outside the groups. -/
theorem ne_one (h1 : sb.start ≤ n) (h2 : n < sb.limit) : 1 ≠ n := by
  rintro rfl
  have := h.apart h1
  omega

theorem isData (hn : n ∈ freeBlocks sb D) : IsData sb n := by
  obtain ⟨⟨h1, h2⟩, hbit⟩ := mem_freeBlocks.1 hn
  exact isData_of_clear h.geom h.metaBits h1 h2 hbit

/-- The bit of a data block may be changed. -/
theorem setUsed (hn : IsData sb n) (v : Bool) : Ready sb (setUsed sb D n v) := by
  obtain ⟨g, k, hg, hk, rfl, hdiv, hmod⟩ := h.geom.exists_group hn.1 hn.2.1
  refine ⟨h.geom, h.apart, ?_, fun g' hg' l hl => ?_⟩
  · obtain ⟨h1, h2⟩ := h.geom.bitmapBlock_lt hg
    rw [Fs.setUsed, hdiv]
    rw [update_of_ne (h.ne_one h1 h2), h.super]
  · have hlk : l ≠ k := by
      have := hn.2.2
      omega
    rw [bit_setUsed h.geom hk, if_neg fun hc => hlk hc.2, h.metaBits g' hg' l hl]

/-- A data block may be overwritten. -/
theorem update (hn : IsData sb n) (blk : Block) : Ready sb (update D n blk) := by
  refine ⟨h.geom, h.apart, ?_, fun g hg k hk => ?_⟩
  · rw [update_of_ne (h.ne_one hn.1 hn.2.1), h.super]
  · rw [update_of_ne (hn.ne_bitmapBlock h.geom g).symm, h.metaBits g hg k hk]

end Ready

theorem oneBit_setUsed (h : BitGeom sb) {n : ℕ} (hn : IsData sb n) :
    OneBit sb D (setUsed sb D n v) n v := by
  obtain ⟨g, k, -, hk, rfl, -⟩ := h.exists_group hn.1 hn.2.1
  intro g' _ l
  have hiff : g' = g ∧ l = k ↔ l < sb.bpg.toNat ∧ sb.groupStart g' + l = sb.groupStart g + k := by
    constructor
    · rintro ⟨rfl, rfl⟩
      exact ⟨hk, rfl⟩
    · rintro ⟨hl, he⟩
      exact groupStart_inj hl hk he
  rw [bit_setUsed h hk]
  simp only [hiff]

/-- The bitmaps do not see what is in a data block. -/
theorem OneBit.update (h : OneBit sb D D' b.toNat v) (hgeom : BitGeom sb) {n : ℕ}
    (hn : IsData sb n) (blk : Block) : OneBit sb D (update D' n blk) b.toNat v := by
  intro g hg k
  rw [update_of_ne (hn.ne_bitmapBlock hgeom g).symm, h g hg k]

/-- Setting a clear bit and clearing it again restores every bitmap. -/
theorem OneBit.restored {D1 D2 : Disk} (h : OneBit sb D D1 b.toNat true)
    (h' : OneBit sb D1 D2 b.toNat false) (hb : b.toNat ∈ freeBlocks sb D) {g : ℕ}
    (hg : g < sb.ngroups.toNat) : D2 (sb.bitmapBlock g) = D (sb.bitmapBlock g) := by
  refine Buf.ext_bit fun k => ?_
  rw [h' g hg k, h g hg k]
  split_ifs with hk
  · obtain ⟨-, hbit⟩ := mem_freeBlocks.1 hb
    rw [← hk.2, usedBit_groupStart_add hk.1] at hbit
    exact hbit.symm
  · rfl

/-- The bits after `balloc` took a block. -/
theorem usedBit_taken (h : BitGeom sb) (hc : IsData sb c.toNat) (hb : IsData sb b.toNat) :
    usedBit sb (s.taken sb c).disk b.toNat =
      if b.toNat = c.toNat then true else usedBit sb s.disk b.toNat := by
  rw [taken_disk, usedBit_congr fun g => update_of_ne (hc.ne_bitmapBlock h g).symm _ _,
    usedBit_setUsed h hc.1 hc.2.1 hb.1 hb.2.1]

/-- `balloc` reports a full disk or takes the lowest free block. -/
theorem balloc_cases (hgeom : BitGeom sb) (hsuper : Superblock.ofBlock (s.disk 1) = sb) :
    freeBlocks sb s.disk = ∅ ∧ balloc s = .ok (0, s.print "balloc: out of blocks") ∨
      ∃ b : UInt32, b.toNat ∈ freeBlocks sb s.disk ∧ (∀ c ∈ freeBlocks sb s.disk, b.toNat ≤ c) ∧
        balloc s = .ok (b, s.taken sb b) := by
  have hwp : wp balloc (fun _ => False) (fun b s' =>
      freeBlocks sb s.disk = ∅ ∧ b = 0 ∧ s' = s.print "balloc: out of blocks" ∨
      b.toNat ∈ freeBlocks sb s.disk ∧ (∀ c ∈ freeBlocks sb s.disk, b.toNat ≤ c) ∧
        s' = s.taken sb b) s :=
    wp_ballocFrom hgeom hsuper (fun hfull => .inl ⟨hfull, rfl, rfl⟩)
      fun b hb hmin => .inr ⟨hb, hmin, rfl⟩
  obtain ⟨b, s', hs, hpost⟩ := exists_ok_of_wp hwp
  rcases hpost with ⟨hfull, rfl, rfl⟩ | ⟨hb, hmin, rfl⟩
  · exact .inl ⟨hfull, hs⟩
  · exact .inr ⟨b, hb, hmin, hs⟩

/-! ### The calls in between -/

/-- A call of the allocator. -/
inductive Alloc where
  | balloc
  | bfree (c : UInt32)

/-- The state after the call. -/
def allocStep (s : State) : Alloc → Option (Except Fail State)
  | .balloc => some ((balloc s).map Prod.snd)
  | .bfree c => some ((bfree c s).map Prod.snd)

/-- A call that does not free a block of a group's metadata, and does not free `b`. -/
def Alloc.others (sb : Superblock) (b : UInt32) : Alloc → Bool
  | .balloc => true
  | .bfree c => c ≠ b ∧ IsData sb c.toNat

/-- A program that returned. -/
theorem exists_of_map_ok {α : Type} {m : Prog State α}
    (h : (m s).map Prod.snd = .ok s') : ∃ a, m s = .ok (a, s') := by
  cases hm : m s with
  | error e =>
    rw [hm] at h
    cases h
  | ok r =>
    rw [hm] at h
    obtain ⟨a, s1⟩ := r
    cases h
    exact ⟨a, rfl⟩

/-- The disk is ready, and the bit of block `b` is set. -/
def Marked (sb : Superblock) (b : UInt32) (s : State) : Prop :=
  Ready sb s.disk ∧ usedBit sb s.disk b.toNat = true

/-- Other calls leave the bit of a data block set. -/
theorem allocStep_keeps (hb : IsData sb b.toNat) (hmark : Marked sb b s) {a : Alloc}
    (hstep : only allocStep (fun _ => Alloc.others sb b) s a = some (.ok s')) : Marked sb b s' := by
  obtain ⟨h, hused⟩ := hmark
  obtain ⟨ha, hstep⟩ := only_eq_some.1 hstep
  cases a with
  | balloc =>
    have hwp : wp balloc (fun _ => True) (fun _ => Marked sb b) s := by
      refine wp_ballocFrom h.geom h.super (fun _ => ⟨h, hused⟩) fun c hc _ => ?_
      have hdata := h.isData hc
      refine ⟨(h.setUsed hdata true).update hdata _, ?_⟩
      rw [usedBit_taken h.geom hdata hb]
      split_ifs
      · rfl
      · exact hused
    rw [allocStep, Option.some.injEq] at hstep
    obtain ⟨r, hr⟩ := exists_of_map_ok hstep
    have hpost := post_of_wp hwp hr
    exact hpost
  | bfree c =>
    rw [Alloc.others, decide_eq_true_eq] at ha
    obtain ⟨hcb, hdata⟩ := ha
    have hwp : wp (bfree c) (fun _ => True) (fun _ => Marked sb b) s := by
      refine wp_bfreeFrom h.geom h.super hdata.1 hdata.2.1
        (fun _ => ⟨h.setUsed hdata false, ?_⟩) fun _ => trivial
      rw [State.given, usedBit_setUsed h.geom hdata.1 hdata.2.1 hb.1 hb.2.1,
        if_neg fun he => hcb (UInt32.toNat_inj.1 he).symm]
      exact hused
    rw [allocStep, Option.some.injEq] at hstep
    obtain ⟨r, hr⟩ := exists_of_map_ok hstep
    have hpost := post_of_wp hwp hr
    exact hpost

/-- **A used data block can be freed**, and that clears its bit only. -/
theorem bfree_ok (hb : IsData sb b.toNat) (hmark : Marked sb b s) :
    ∃ s', bfree b s = .ok ((), s') ∧ OneBit sb s.disk s'.disk b.toNat false := by
  obtain ⟨h, hused⟩ := hmark
  have hwp : wp (bfree b) (fun _ => False) (fun _ s' => OneBit sb s.disk s'.disk b.toNat false) s :=
    wp_bfreeFrom h.geom h.super hb.1 hb.2.1 (fun _ => oneBit_setUsed h.geom hb) fun hn => hn hused
  obtain ⟨_, s', hs, hbits⟩ := exists_ok_of_wp hwp
  exact ⟨s', hs, hbits⟩

/-! ### The theorem -/

/-- What `balloc` has done when it returns block `b`. -/
structure Took (sb : Superblock) (s : State) (b : UInt32) (s' : State) : Prop where
  free : b.toNat ∈ freeBlocks sb s.disk
  lowest : ∀ c ∈ freeBlocks sb s.disk, b.toNat ≤ c
  data : IsData sb b.toNat
  zero : s'.disk b.toNat = Buf.zero
  bits : OneBit sb s.disk s'.disk b.toNat true

/-- **`balloc` takes the lowest free block, and `bfree` gives that block back.**  `balloc` returns 0
exactly when no group has a clear bit, and then leaves the file system as it was; the block it
returns otherwise can be freed after any other calls in between, and at once this restores every
bitmap. -/
theorem balloc_bfree (h : Ready sb s.disk) :
    ∃ b s', balloc s = .ok (b, s') ∧
      (b = 0 ↔ ∀ g < sb.ngroups.toNat, ∀ k < sb.bpg.toNat,
        (s.disk (sb.bitmapBlock g)).bit k = true) ∧
      (b = 0 → s' = s.print "balloc: out of blocks") ∧
      (b ≠ 0 → Took sb s b s' ∧
        (∀ s₁, Reaches (only allocStep fun _ => Alloc.others sb b) s' s₁ →
          ∃ s₂, bfree b s₁ = .ok ((), s₂) ∧ OneBit sb s₁.disk s₂.disk b.toNat false) ∧
        ∃ s₂, bfree b s' = .ok ((), s₂) ∧
          ∀ g < sb.ngroups.toNat, s₂.disk (sb.bitmapBlock g) = s.disk (sb.bitmapBlock g)) := by
  rw [← freeBlocks_eq_empty h.geom]
  rcases balloc_cases h.geom h.super with ⟨hfull, hs⟩ | ⟨b, hb, hmin, hs⟩
  · exact ⟨0, _, hs, ⟨fun _ => hfull, fun _ => rfl⟩, fun _ => rfl, fun h₀ => absurd rfl h₀⟩
  have hdata := h.isData hb
  have hb₀ : b ≠ 0 := hdata.ne_zero
  have hbits : OneBit sb s.disk (s.taken sb b).disk b.toNat true :=
    (oneBit_setUsed h.geom hdata).update h.geom hdata _
  have hmark : Marked sb b (s.taken sb b) := by
    refine ⟨(h.setUsed hdata true).update hdata _, ?_⟩
    rw [usedBit_taken h.geom hdata hdata, if_pos rfl]
  refine ⟨b, _, hs, ⟨fun hz => absurd hz hb₀, fun hempty => ?_⟩, fun hz => absurd hz hb₀, fun _ =>
    ⟨⟨hb, hmin, hdata, update_self _ _ _, hbits⟩, fun s₁ hrun => ?_, ?_⟩⟩
  · rw [hempty] at hb
    exact absurd hb (Finset.notMem_empty _)
  · -- the bit stays set along the run
    exact bfree_ok hdata (hrun.inv (fun _ _ _ h hstep => allocStep_keeps hdata h hstep) hmark)
  · obtain ⟨s₂, hs₂, hbits₂⟩ := bfree_ok hdata hmark
    exact ⟨s₂, hs₂, fun g hg => hbits.restored hbits₂ hb hg⟩

/-- A disk with one group of four blocks: an inode block, the bitmap and two data blocks, all of
them free. -/
def smallSb : Superblock where
  magic := 0
  size := 6
  nblocks := 2
  ninodes := 8
  nlog := 0
  logstart := 2
  inodestart := 2
  bmapstart := 3
  bpg := 4
  ipg := 8
  ngroups := 1

/-- The file system on that disk. -/
def smallState : State where
  disk := update (update (fun _ => Buf.zero) 1 smallSb.toBlock) 3
    ((Buf.zero.setBit 0).setBit 1)
  sb := smallSb
  icache _ := { Dinode.zero with dev := 0, inum := 0, ref := 0, locked := false, valid := false }
  devsw _ := ⟨none, none⟩
  logged := []
  console := []

theorem ready_small : Ready smallSb smallState.disk where
  geom := ⟨by decide, by decide, by decide⟩
  apart := by decide
  super := ofBlock_toBlock smallSb
  metaBits := by decide +kernel

/-- The hypotheses of `balloc_bfree` are satisfiable: of the two data blocks the first is taken. -/
theorem balloc_bfree_small :
    ∃ b s', balloc smallState = .ok (b, s') ∧ Took smallSb smallState b s' := by
  obtain ⟨b, s', hs, hfull, -, htook⟩ := balloc_bfree ready_small
  refine ⟨b, s', hs, (htook fun hb => ?_).1⟩
  exact absurd (hfull.1 hb 0 (by decide) 2 (by decide)) (by decide +kernel)

/-- The bitmap block is freed, taken and zeroed, and the bit of a used data block is gone. -/
theorem bfree_metadata : Ready smallSb smallState.disk ∧ ∃ s₁ s₂, balloc smallState = .ok (4, s₁) ∧
    runSteps allocStep s₁ [.bfree 3, .balloc] = some s₂ ∧
    bfree 4 s₂ = .error (.panic "freeing free block") := by
  have hrun : (match balloc smallState with
      | .ok (b, s₁) => b == 4 && match runSteps allocStep s₁ [.bfree 3, .balloc] with
        | some s₂ => match bfree 4 s₂ with
          | .error e => e == .panic "freeing free block"
          | .ok _ => false
        | none => false
      | .error _ => false) = true := by decide +kernel
  split at hrun
  · rename_i b s₁ hb
    rw [Bool.and_eq_true, beq_iff_eq] at hrun
    obtain ⟨rfl, hrun⟩ := hrun
    split at hrun
    · rename_i s₂ hs₂
      split at hrun
      · rename_i e he
        rw [beq_iff_eq] at hrun
        exact ⟨ready_small, s₁, s₂, hb, hs₂, hrun ▸ he⟩
      · cases hrun
    · cases hrun
  · cases hrun

end Xv6.Fs
