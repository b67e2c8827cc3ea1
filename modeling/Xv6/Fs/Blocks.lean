/-
# The block allocator

`balloc` and `bfree` of `fs.c` over the bitmaps of the groups.  On a formatted
disk (`Formatted`) `balloc` takes the lowest free block, marks it and zeroes it,
or fails and changes nothing (`wp_balloc`), and `bfree` clears the bit of a
block that was marked (`wp_bfree`).  What the two do to the disk is said once
for both, by `setUsed`.
-/

import Xv6.Fs.Accounting
import Xv6.Fs.Inode

namespace Xv6.Fs

open Function Lib List Nat Superblock UInt32

/-! ### Marking a block -/

/-- The disk with the bit of block `b` set or cleared. -/
def setUsed (sb : Superblock) (D : Disk) (b : ℕ) (v : Bool) : Disk :=
  let bm := sb.bitmapBlock ((b - sb.start) / sb.bpg.toNat)
  let bi := (b - sb.start) % sb.bpg.toNat
  update D bm (if v then (D bm).setBit bi else (D bm).clearBit bi)

variable {sb : Superblock} {D : Disk}

/-- The bits depend on the bitmap blocks only. -/
theorem usedBit_congr {D' : Disk} (h : ∀ g, D' (sb.bitmapBlock g) = D (sb.bitmapBlock g)) (b : ℕ) :
    usedBit sb D' b = usedBit sb D b := by
  rw [usedBit, usedBit, h]

section SetUsed

variable {sb : Superblock} {D : Disk} {b c : ℕ} {v : Bool}

theorem setUsed_of_ne (h : ∀ g, c ≠ sb.bitmapBlock g) : setUsed sb D b v c = D c :=
  update_of_ne (h _) _ _

variable (hsb : BitGeom sb)
include hsb

/-- The bit of block `k` of a group after marking block `bi` of a group. -/
theorem bit_setUsed {g g' k bi : ℕ} (hbi : bi < sb.bpg.toNat) :
    (setUsed sb D (sb.groupStart g + bi) v (sb.bitmapBlock g')).bit k =
      if g' = g ∧ k = bi then v else (D (sb.bitmapBlock g')).bit k := by
  obtain ⟨hd, hm⟩ := groupStart_add_div (g := g) hbi
  have hn : bi / 8 < BSIZE := by
    have := hsb.bpg_le
    simp only [BPB] at this
    simp only [BSIZE]
    omega
  rw [setUsed, hd, hm]
  by_cases hg : g' = g
  · subst hg
    rw [update_self]
    by_cases hkb : k = bi
    · subst hkb
      cases v <;> simp [Buf.bit_setBit_self hn, Buf.bit_clearBit_self]
    · cases v <;> simp [hkb, Buf.bit_setBit_of_ne hkb, Buf.bit_clearBit_of_ne hkb]
  · have hne : sb.bitmapBlock g' ≠ sb.bitmapBlock g := fun he =>
      hg (groupStart_inj hsb.meta_le hsb.meta_le he).1
    rw [update_of_ne hne, if_neg (by tauto)]

theorem usedBit_setUsed (hb1 : sb.start ≤ b) (hb2 : b < sb.limit) (hc1 : sb.start ≤ c)
    (hc2 : c < sb.limit) :
    usedBit sb (setUsed sb D b v) c = if c = b then v else usedBit sb D c := by
  obtain ⟨g, k, -, hk, rfl, -⟩ := hsb.exists_group hb1 hb2
  obtain ⟨g', k', -, hk', rfl, -⟩ := hsb.exists_group hc1 hc2
  rw [usedBit_groupStart_add hk', usedBit_groupStart_add hk', bit_setUsed hsb hk]
  have hiff : sb.groupStart g' + k' = sb.groupStart g + k ↔ g' = g ∧ k' = k :=
    ⟨groupStart_inj hk' hk, by rintro ⟨rfl, rfl⟩; rfl⟩
  simp only [hiff]

end SetUsed

/-- A clear bit is the bit of a data block, where every group's own bits are set. -/
theorem isData_of_clear (h : BitGeom sb)
    (hmeta : ∀ g < sb.ngroups.toNat, ∀ k ≤ sb.inodeBlocks, (D (sb.bitmapBlock g)).bit k = true)
    {b : ℕ} (hb1 : sb.start ≤ b) (hb2 : b < sb.limit) (hbit : usedBit sb D b = false) :
    IsData sb b := by
  obtain ⟨g, k, hg, hk, rfl, -⟩ := h.exists_group hb1 hb2
  rw [usedBit_groupStart_add hk] at hbit
  refine isData_groupStart_add hg hk (Nat.lt_of_not_le fun hle => ?_)
  rw [hmeta g hg k hle] at hbit
  exact Bool.noConfusion hbit

/-! ### Formatted disks -/

/-- The disk has the format of superblock `sb`: block 1 holds it, the boot block
is zero, and the bits of every group's own blocks are set. -/
structure Formatted (sb : Superblock) (D : Disk) : Prop where
  geom : Geometry sb
  super : Superblock.ofBlock (D 1) = sb
  boot : D 0 = Buf.zero
  metaBits : ∀ g < sb.ngroups.toNat, ∀ k ≤ sb.inodeBlocks, (D (sb.bitmapBlock g)).bit k = true

namespace Formatted

variable {sb : Superblock} {D : Disk} (h : Formatted sb D) {b : ℕ}
include h

/-- The format does not speak of data blocks and inode blocks. -/
theorem update (hb : 2 ≤ b) (hbm : ∀ g, b ≠ sb.bitmapBlock g) (blk : Block) :
    Formatted sb (update D b blk) where
  geom := h.geom
  super := by rw [update_of_ne (by omega), h.super]
  boot := by rw [update_of_ne (by omega), h.boot]
  metaBits g hg k hk := by rw [update_of_ne (hbm g).symm, h.metaBits g hg k hk]

/-- Data blocks may be marked and unmarked. -/
theorem setUsed (hb : IsData sb b) (v : Bool) : Formatted sb (setUsed sb D b v) := by
  have h2 := h.geom.two_le
  have hne : ∀ c < 2, ∀ g, c ≠ sb.bitmapBlock g := fun c hc g => by
    unfold bitmapBlock groupStart
    omega
  refine ⟨h.geom, ?_, ?_, fun g hg k hk => ?_⟩
  · rw [setUsed_of_ne (hne 1 (by omega)), h.super]
  · rw [setUsed_of_ne (hne 0 (by omega)), h.boot]
  · have hml := h.geom.meta_le
    obtain ⟨g', k', -, hk', rfl, -, hm⟩ := h.geom.bits.exists_group hb.1 hb.2.1
    have := hb.2.2
    rw [bit_setUsed h.geom.bits hk', if_neg (by omega), h.metaBits g hg k hk]

/-- A clear bit is the bit of a data block. -/
theorem isData_of_usedBit (hb1 : sb.start ≤ b) (hb2 : b < sb.limit)
    (hbit : usedBit sb D b = false) : IsData sb b :=
  isData_of_clear h.geom.bits h.metaBits hb1 hb2 hbit

end Formatted

theorem mem_freeBlocks {b : ℕ} :
    b ∈ freeBlocks sb D ↔ (sb.start ≤ b ∧ b < sb.limit) ∧ usedBit sb D b = false := by
  rw [freeBlocks, Finset.mem_filter, Finset.mem_Ico]

/-- No block is free when every bit of every group is set. -/
theorem freeBlocks_eq_empty (h : BitGeom sb) :
    freeBlocks sb D = ∅ ↔
      ∀ g < sb.ngroups.toNat, ∀ k < sb.bpg.toNat, (D (sb.bitmapBlock g)).bit k = true := by
  rw [Finset.eq_empty_iff_forall_notMem]
  constructor
  · intro hno g hg k hk
    by_contra hbit
    refine hno (sb.groupStart g + k) (mem_freeBlocks.2 ⟨⟨?_, groupStart_add_lt hg hk⟩, ?_⟩)
    · unfold groupStart
      omega
    · rw [usedBit_groupStart_add hk]
      exact Bool.eq_false_iff.2 hbit
  · intro hall b hb
    obtain ⟨⟨hb1, hb2⟩, hbit⟩ := mem_freeBlocks.1 hb
    obtain ⟨g, k, hg, hk, rfl, -⟩ := h.exists_group hb1 hb2
    rw [usedBit_groupStart_add hk, hall g hg k hk] at hbit
    exact Bool.noConfusion hbit

/-- Marking a free block takes it out of the free ones. -/
theorem freeBlocks_setUsed (h : BitGeom sb) {b : ℕ} (hb1 : sb.start ≤ b) (hb2 : b < sb.limit) :
    freeBlocks sb (setUsed sb D b true) = (freeBlocks sb D).erase b := by
  ext c
  rw [Finset.mem_erase, mem_freeBlocks, mem_freeBlocks]
  refine ⟨fun ⟨hc, hu⟩ => ?_, fun ⟨hcb, hc, hu⟩ => ⟨hc, ?_⟩⟩
  · rw [usedBit_setUsed h hb1 hb2 hc.1 hc.2] at hu
    split_ifs at hu with hcb
    exact ⟨hcb, hc, hu⟩
  · rwa [usedBit_setUsed h hb1 hb2 hc.1 hc.2, if_neg hcb]

/-! ### The two functions -/

/-- The state after printing a line. -/
def State.print (s : State) (msg : String) : State := { s with console := s.console ++ [msg] }

/-- The state after `balloc` took block `b` of the groups of `sb`. -/
def State.taken (s : State) (sb : Superblock) (b : UInt32) : State :=
  { s with
    disk := update (setUsed sb s.disk b.toNat true) b.toNat Buf.zero
    logged := s.logged ++ [BBLOCK b sb, b] }

/-- The state after `bfree` gave back block `b` of the groups of `sb`. -/
def State.given (s : State) (sb : Superblock) (b : UInt32) : State :=
  { s with
    disk := setUsed sb s.disk b.toNat false
    logged := s.logged ++ [BBLOCK b sb] }

/-- The state after `balloc` took block `b`. -/
def State.allocated (s : State) (b : UInt32) : State :=
  { s with
    disk := update (setUsed s.sb s.disk b.toNat true) b.toNat Buf.zero
    logged := s.logged ++ [BBLOCK b s.sb, b] }

/-- The state after `bfree` freed block `b`. -/
def State.freed (s : State) (b : UInt32) : State :=
  { s with
    disk := setUsed s.sb s.disk b.toNat false
    logged := s.logged ++ [BBLOCK b s.sb] }

section Fields

variable (s : State) (b : UInt32) (msg : String)

@[simp] theorem print_disk : (s.print msg).disk = s.disk := rfl

theorem taken_disk (sb : Superblock) : (s.taken sb b).disk =
    update (setUsed sb s.disk b.toNat true) b.toNat Buf.zero := rfl

@[simp] theorem allocated_disk : (s.allocated b).disk =
    update (setUsed s.sb s.disk b.toNat true) b.toNat Buf.zero := rfl

@[simp] theorem allocated_sb : (s.allocated b).sb = s.sb := rfl

@[simp] theorem allocated_icache : (s.allocated b).icache = s.icache := rfl

@[simp] theorem freed_disk : (s.freed b).disk = setUsed s.sb s.disk b.toNat false := rfl

@[simp] theorem freed_icache : (s.freed b).icache = s.icache := rfl

end Fields

variable {b : UInt32} {s : State}

/-- A block that was taken is not free any more. -/
theorem freeBlocks_taken (h : BitGeom sb) (hb : IsData sb b.toNat) :
    freeBlocks sb (s.taken sb b).disk = (freeBlocks sb s.disk).erase b.toNat := by
  rw [← freeBlocks_setUsed h hb.1 hb.2.1, freeBlocks, freeBlocks, taken_disk]
  refine Finset.filter_congr fun c _ => ?_
  rw [usedBit_congr fun g => update_of_ne (hb.ne_bitmapBlock h g).symm _ _]

variable {g : ℕ}

/-- The addresses computed by `balloc` do not wrap around. -/
theorem BitGeom.groupAddr_toNat (h : BitGeom sb) {k : UInt32}
    (hg : g < sb.ngroups.toNat) (hk : k.toNat < sb.bpg.toNat) :
    (sb.logstart + sb.nlog + UInt32.ofNat g * sb.bpg + k).toNat = sb.groupStart g + k.toNat := by
  have hlt := groupStart_add_lt hg hk
  have hf := h.fits
  have hg' := sb.ngroups.toNat_lt
  unfold groupStart start at *
  simp only [UInt32.toNat_add, UInt32.toNat_mul, UInt32.toNat_ofNat', mod_eq_of_lt
    (show g < 2 ^ 32 by omega)]
  generalize g * sb.bpg.toNat = x at *
  omega

/-- The bitmap block of block `k` of group `g`. -/
theorem BitGeom.BBLOCK_eq (h : BitGeom sb) {k : ℕ} {bm : UInt32}
    (hg : g < sb.ngroups.toNat) (hk : k < sb.bpg.toNat) (hb : b.toNat = sb.groupStart g + k)
    (hbm : bm.toNat = sb.bitmapBlock g) : BBLOCK b sb = bm := by
  apply UInt32.toNat_inj.1
  have hlt := groupStart_add_lt hg hk
  have hle : sb.start ≤ sb.groupStart g + k := by unfold groupStart; omega
  rw [h.BBLOCK_toNat (hb ▸ hle) (hb ▸ hlt), hb, (groupStart_add_div hk).1, hbm]

variable {E : Fail → Prop}

/-- One group's turn in `balloc`: its lowest free block, or none. -/
theorem wp_ballocGroup {Q : Option UInt32 → State → Prop}
    (hgeom : BitGeom sb) (hg : g < sb.ngroups.toNat)
    (hnone : (∀ k < sb.bpg.toNat, (s.disk (sb.bitmapBlock g)).bit k = true) → Q none s)
    (hsome : ∀ (b : UInt32) (k : ℕ), k < sb.bpg.toNat → b.toNat = sb.groupStart g + k →
      (s.disk (sb.bitmapBlock g)).bit k = false →
      (∀ l < k, (s.disk (sb.bitmapBlock g)).bit l = true) → Q (some b) (s.taken sb b)) :
    wp (ballocGroup sb g) E Q s := by
  have hbpg := hgeom.bpg_le
  have hib : (sb.ipg / 8).toNat = sb.inodeBlocks := by
    rw [UInt32.toNat_div]; rfl
  have hbm : (sb.logstart + sb.nlog + ofNat g * sb.bpg + sb.ipg / 8).toNat = sb.bitmapBlock g := by
    rw [hgeom.groupAddr_toNat hg (hib ▸ hgeom.meta_le), hib]; rfl
  unfold ballocGroup bread
  simp only [wp_bind, wp_get, wp_pure, hbm]
  cases hff : firstFree (s.disk (sb.bitmapBlock g)) sb.bpg with
  | none =>
    rw [firstFree, find?_eq_none] at hff
    refine wp_pure.2 (hnone fun k hk => ?_)
    simpa using hff k (by rw [mem_range]; omega)
  | some k =>
    rw [firstFree, find?_range_eq_some] at hff
    obtain ⟨hbit, hmem, hmin⟩ := hff
    have hk : k < sb.bpg.toNat := by rw [mem_range] at hmem; omega
    have hku : (ofNat k).toNat = k := by
      have := sb.bpg.toNat_lt
      rw [toNat_ofNat', mod_eq_of_lt (by omega)]
    have hb := hgeom.groupAddr_toNat hg (hku.symm ▸ hk)
    rw [hku] at hb
    have hBB := hgeom.BBLOCK_eq hg hk hb hbm
    have hspec := hsome _ k hk hb (by simpa using hbit) fun l hl => by simpa using hmin l hl
    simp only [logWrite, wp_bind, wp_modify, wp_pure]
    simp only [State.taken, setUsed, hb, hBB, (groupStart_add_div hk).1,
      (groupStart_add_div hk).2, if_true] at hspec
    simpa only [State.store, hbm, hb, append_assoc, cons_append, nil_append] using hspec

/-- `balloc` with the superblock that it reads. -/
theorem wp_ballocFrom {Q : UInt32 → State → Prop}
    (hgeom : BitGeom sb) (hsuper : Superblock.ofBlock (s.disk 1) = sb)
    (hfull : freeBlocks sb s.disk = ∅ → Q 0 (s.print "balloc: out of blocks"))
    (halloc : ∀ b : UInt32, b.toNat ∈ freeBlocks sb s.disk →
      (∀ c ∈ freeBlocks sb s.disk, b.toNat ≤ c) → Q b (s.taken sb b)) :
    wp balloc E Q s := by
  unfold balloc readsb bread
  simp only [wp_bind, wp_get, wp_pure, reduceToNat, hsuper]
  refine wp_findSomeM? (fun l s' => s' = s ∧ ∃ g, l = range' g (sb.ngroups.toNat - g) ∧
    ∀ g' < g, ∀ k < sb.bpg.toNat, (s.disk (sb.bitmapBlock g')).bit k = true) ?_ ?_
    ⟨rfl, 0, range_eq_range', by omega⟩
  · rintro g l s' ⟨rfl, g0, hl, hbelow⟩
    obtain ⟨n, hn⟩ : ∃ n, sb.ngroups.toNat - g0 = n + 1 := by
      cases hc : sb.ngroups.toNat - g0 with
      | zero => rw [hc] at hl; exact absurd hl (by simp)
      | succ n => exact ⟨n, rfl⟩
    rw [hn, range'_succ, cons.injEq] at hl
    obtain ⟨rfl, rfl⟩ := hl
    refine wp_ballocGroup hgeom (by omega) (fun hfull => ⟨rfl, g + 1, ?_, ?_⟩) ?_
    · rw [show sb.ngroups.toNat - (g + 1) = n by omega]
    · intro g' hg' k hk
      rcases Nat.lt_succ_iff_lt_or_eq.1 hg' with hlt | rfl
      · exact hbelow g' hlt k hk
      · exact hfull k hk
    · intro b k hk hb hbit hmin
      have hle : sb.start ≤ sb.groupStart g + k := by unfold groupStart; omega
      refine wp_pure.2 (halloc b ?_ fun c hc => ?_)
      · rw [mem_freeBlocks, hb, usedBit_groupStart_add hk]
        exact ⟨⟨hle, groupStart_add_lt (by omega) hk⟩, hbit⟩
      · obtain ⟨⟨hc1, hc2⟩, hcb⟩ := mem_freeBlocks.1 hc
        obtain ⟨g', k', -, hk', rfl, -⟩ := hgeom.exists_group hc1 hc2
        rw [usedBit_groupStart_add hk'] at hcb
        rw [hb]
        by_contra hlt
        rcases lt_trichotomy g' g with hg' | rfl | hg'
        · rw [hbelow g' hg' k' hk'] at hcb
          exact Bool.noConfusion hcb
        · rw [hmin k' (by omega)] at hcb
          exact Bool.noConfusion hcb
        · have := mul_le_mul_right sb.bpg.toNat (succ_le_of_lt hg')
          rw [succ_mul] at this
          unfold groupStart at hlt
          omega
  · rintro s' ⟨rfl, g, hl, hbelow⟩
    have hg : sb.ngroups.toNat ≤ g := by
      have := congrArg length hl
      rw [length_range', length_nil] at this
      omega
    simp only [cprintf, wp_bind, wp_modify, wp_pure]
    exact hfull ((freeBlocks_eq_empty hgeom).2 fun g' hg' => hbelow g' (by omega))

/-- **`balloc`** takes the lowest free block, or reports that there is none. -/
theorem wp_balloc {Q : UInt32 → State → Prop}
    (hf : Formatted s.sb s.disk)
    (hfull : freeBlocks s.sb s.disk = ∅ → Q 0 (s.print "balloc: out of blocks"))
    (halloc : ∀ b : UInt32, b.toNat ∈ freeBlocks s.sb s.disk →
      (∀ c ∈ freeBlocks s.sb s.disk, b.toNat ≤ c) → Q b (s.allocated b)) :
    wp balloc E Q s :=
  wp_ballocFrom hf.geom.bits hf.super hfull halloc

/-- `bfree` with the superblock that it reads. -/
theorem wp_bfreeFrom {Q : PUnit → State → Prop} (hgeom : BitGeom sb)
    (hsuper : Superblock.ofBlock (s.disk 1) = sb) (hb1 : sb.start ≤ b.toNat)
    (hb2 : b.toNat < sb.limit) (hused : usedBit sb s.disk b.toNat = true → Q ⟨⟩ (s.given sb b))
    (hfree : ¬ usedBit sb s.disk b.toNat = true → E (.panic "freeing free block")) :
    wp (bfree b) E Q s := by
  have hlim := hgeom.fits
  have hstart : (sb.logstart + sb.nlog).toNat = sb.start := by
    unfold start at *
    rw [UInt32.toNat_add]
    have := b.toNat_lt
    omega
  have hbi : ((b - (sb.logstart + sb.nlog)) % sb.bpg).toNat =
      (b.toNat - sb.start) % sb.bpg.toNat := by
    have hle : sb.logstart + sb.nlog ≤ b := by
      rw [le_iff_toNat_le, hstart]
      exact hb1
    rw [UInt32.toNat_mod, UInt32.toNat_sub_of_le _ _ hle, hstart]
  unfold bfree readsb bread logWrite
  simp only [wp_bind, wp_get, wp_pure, reduceToNat, hsuper, hbi, hgeom.BBLOCK_toNat hb1 hb2]
  rw [wp_ite]
  refine ⟨fun hbit => ?_, fun hbit => wp_panic.2 (hfree hbit)⟩
  simpa only [wp_modify, State.store, hgeom.BBLOCK_toNat hb1 hb2, State.given, setUsed,
    Bool.false_eq_true, if_false] using hused hbit

/-- **`bfree`** clears the bit of a used block. -/
theorem wp_bfree {Q : PUnit → State → Prop}
    (hf : Formatted s.sb s.disk) (hb1 : s.sb.start ≤ b.toNat) (hb2 : b.toNat < s.sb.limit)
    (hused : usedBit s.sb s.disk b.toNat = true) (hQ : Q ⟨⟩ (s.freed b)) : wp (bfree b) E Q s :=
  wp_bfreeFrom hf.geom.bits hf.super hb1 hb2 (fun _ => hQ) fun hn => absurd hused hn

end Xv6.Fs
