/-
# Directories and links

What holds of the inodes beyond the block accounting (`WfAt`):

* the inode on disk is the current one up to block addresses,
* an allocated inode without links is in the inode cache,
* the entries of a directory name inodes that exist, and
* a directory has all its blocks, on the disk too.

`mkfs` can leave the root directory with an unmapped last block, so the last
point is stated for the directories outside a set `X`.

The theorems `Wf.…` say that this is kept by each kind of change the code makes.
-/

import Xv6.Fs.Entries
import Xv6.Fs.ReadWrite
import Xv6.Fs.Truncate

namespace Xv6.Fs

open Function Lib

/-! ### Directory entries -/

/-- Entry `j` of a directory with the bytes `f`. -/
def direntAt (f : ℕ → UInt8) (j : ℕ) : Dirent := Dirent.ofBytes fun i => f (16 * j + i)

theorem direntAt_congr {f g : ℕ → UInt8} {j j' : ℕ}
    (h : ∀ r < 16, f (16 * j + r) = g (16 * j' + r)) : direntAt f j = direntAt g j' :=
  congrArg Dirent.ofBytes (funext fun i => h i i.isLt)

theorem direntAt_zero (j : ℕ) : (direntAt (fun _ => 0) j).inum = 0 := Buf.getU16_zero 0

/-- The first `n` bytes `f` of a directory hold entries of inodes below `N`. -/
def EntriesBelow (N : ℕ) (f : ℕ → UInt8) (n : ℕ) : Prop :=
  ∀ j, 16 * j + 16 ≤ n → (direntAt f j).inum.toNat < N

/-- A directory that has lost some of its blocks holds a part of its entries. -/
theorem EntriesBelow.shrink {N n : ℕ} {D : Disk} {d d' : Dinode} (hN : 0 < N)
    (h : EntriesBelow N (content D d) n)
    (hd : ∀ i, d'.addrs i = 0 ∨ d'.addrs i = d.addrs i) : EntriesBelow N (content D d') n := by
  intro j hj
  have hpage : ∀ r < 16, (16 * j + r) / BSIZE = 16 * j / BSIZE := fun r hr => by
    simp only [BSIZE]; omega
  rcases holds_shrink (D := D) (k := dataPlace (16 * j / BSIZE)) hd with h0 | h0
  · have hz : direntAt (content D d') j = direntAt (fun _ => 0) j :=
      direntAt_congr fun r hr => by rw [content, hpage r hr, blockAddr, h0, if_pos rfl]
    rw [hz, direntAt_zero]
    exact hN
  · have he : direntAt (content D d') j = direntAt (content D d) j :=
      direntAt_congr fun r hr => by simp only [content, hpage r hr, blockAddr, h0]
    rw [he]
    exact h j hj

/-! ### Well-formed inodes -/

/-- The disk has a block for each block of directory `i` below its size. -/
def Backed (s : State) (i : UInt32) : Prop :=
  16 ∣ (s.cur i).size.toNat ∧
    ∀ bn, bn * BSIZE < (s.cur i).size.toNat → blockAddr s.disk (s.dinode i) bn ≠ 0

/-- Inode `i` is well-formed. -/
structure WfAt (X : UInt32 → Prop) (s : State) (i : UInt32) : Prop where
  synced : i.toNat < s.sb.ninodes.toNat →
    s.dinode i = { s.cur i with addrs := (s.dinode i).addrs }
  linked : Live s.sb s.cur i → (s.cur i).nlink = 0 → ∃ k, s.Loaded k ∧ (s.icache k).inum = i
  entries : Live s.sb s.cur i → (s.cur i).type = T_DIR →
    EntriesBelow s.sb.ninodes.toNat (content s.disk (s.cur i)) (s.cur i).size.toNat
  backed : ¬ X i → Live s.sb s.cur i → (s.cur i).type = T_DIR → Backed s i

/-- **The file system is well-formed.** -/
structure Wf (X : UInt32 → Prop) (s : State) : Prop where
  inv : Inv s
  inode : ∀ i, WfAt X s i

section Wf

variable {X : UInt32 → Prop} {s s' : State} {k : Slot} {i : UInt32}

/-- The addresses of the inode on disk are among the current ones. -/
theorem Inv.dinode_addrs (h : Inv s) (hi : i.toNat < s.sb.ninodes.toNat) (j : Fin (NDIRECT + 1)) :
    (s.dinode i).addrs j = 0 ∨ (s.dinode i).addrs j = (s.cur i).addrs j := by
  by_cases hc : ∃ k, s.Loaded k ∧ (s.icache k).inum = i
  · obtain ⟨k, hk, rfl⟩ := hc
    rw [h.coh.cur_loaded hk]
    exact (h.coh.sync k hk).2.2 j
  · rw [cur_disk hi fun k hk he => hc ⟨k, hk, he⟩]
    exact .inr rfl

/-- A block that the inode on disk has is the current one. -/
theorem Inv.blockAddr_dinode (h : Inv s) (hi : i.toNat < s.sb.ninodes.toNat) {bn : ℕ}
    (h0 : blockAddr s.disk (s.dinode i) bn ≠ 0) :
    blockAddr s.disk (s.cur i) bn = blockAddr s.disk (s.dinode i) bn :=
  (holds_of_shrink (h.dinode_addrs hi) h0).symm

/-- A block stays on the disk if the current inode keeps its blocks. -/
theorem blockAddr_dinode_of_keep (h : Inv s) (h' : Inv s') (hsb : s'.sb = s.sb)
    (hi : i.toNat < s.sb.ninodes.toNat) (hd : s'.dinode i = s.dinode i)
    (hkeep : ∀ bn, blockAddr s.disk (s.cur i) bn ≠ 0 →
      blockAddr s'.disk (s'.cur i) bn = blockAddr s.disk (s.cur i) bn) {bn : ℕ}
    (h0 : blockAddr s.disk (s.dinode i) bn ≠ 0) : blockAddr s'.disk (s'.dinode i) bn ≠ 0 := by
  have hcur := h.blockAddr_dinode hi h0
  have hnew := holds_of_shrink (D := s'.disk) (h'.dinode_addrs (hsb ▸ hi)) (hd ▸ h0)
  rw [← hcur] at h0
  exact hnew.trans_ne ((hkeep bn h0).trans_ne h0)

/-- Nothing that concerns inode `i` has changed. -/
theorem WfAt.congr (hw : WfAt X s i) (h : Inv s) (h' : Inv s') (hsb : s'.sb = s.sb)
    (hcur : s'.cur i = s.cur i) (hdin : i.toNat < s.sb.ninodes.toNat → s'.dinode i = s.dinode i)
    (hblk : Live s.sb s.cur i → SameBlocks s.disk s'.disk (s.cur i))
    (hload : ∀ k, s.Loaded k → (s.icache k).inum = i →
      s'.Loaded k ∧ (s'.icache k).inum = (s.icache k).inum) : WfAt X s' i := by
  have hlive : Live s'.sb s'.cur i ↔ Live s.sb s.cur i := by rw [Live, Live, hsb, hcur]
  refine ⟨fun hi => ?_, fun hl hn => ?_, fun hl hty => ?_, fun hX hl hty => ?_⟩
  · rw [hsb] at hi
    rw [hdin hi, hcur]
    exact hw.synced hi
  · obtain ⟨k, hk, he⟩ := hw.linked (hlive.1 hl) (hcur ▸ hn)
    exact ⟨k, (hload k hk he).1, (hload k hk he).2.trans he⟩
  · have hl := hlive.1 hl
    rw [hcur] at hty ⊢
    rw [hsb, (hblk hl).content]
    exact hw.entries hl hty
  · have hl := hlive.1 hl
    have hsame := hblk hl
    rw [hcur] at hty
    obtain ⟨h16, hb⟩ := hw.backed hX hl hty
    rw [Backed, hcur]
    refine ⟨h16, fun bn hbn => ?_⟩
    refine blockAddr_dinode_of_keep h h' hsb hl.1 (hdin hl.1) (fun bn _ => ?_) (hb bn hbn)
    rw [hcur, blockAddr, holds_congr hsame.indirect, blockAddr]

/-- Only the bookkeeping of the cache has changed. -/
structure Same (s s' : State) : Prop where
  sb : s'.sb = s.sb
  disk : s'.disk = s.disk
  cur : s'.cur = s.cur
  loaded : ∀ k, s.Loaded k → s'.Loaded k ∧ (s'.icache k).inum = (s.icache k).inum

theorem Same.dinode (h : Same s s') (i : UInt32) : s'.dinode i = s.dinode i :=
  dinode_congr h.sb (congrFun h.disk _)

theorem Wf.same (hw : Wf X s) (h' : Inv s') (hs : Same s s') : Wf X s' :=
  ⟨h', fun i => (hw.inode i).congr hw.inv h' hs.sb (congrFun hs.cur i)
    (fun _ => hs.dinode i) (fun _ _ _ _ => by rw [hs.disk])
    fun k hk _ => hs.loaded k hk⟩

/-- Nothing has changed that concerns the inodes other than `i₀`. -/
structure Besides (i₀ : UInt32) (s s' : State) : Prop where
  sb : s'.sb = s.sb
  cur : ∀ i ≠ i₀, s'.cur i = s.cur i
  dinode : ∀ i ≠ i₀, i.toNat < s.sb.ninodes.toNat → s'.dinode i = s.dinode i
  blocks : ∀ i ≠ i₀, Live s.sb s.cur i → SameBlocks s.disk s'.disk (s.cur i)
  loaded : ∀ k, s.Loaded k → (s.icache k).inum ≠ i₀ →
    s'.Loaded k ∧ (s'.icache k).inum = (s.icache k).inum

theorem Same.besides (h : Same s s') (i0 : UInt32) : Besides i0 s s' where
  sb := h.sb
  cur i _ := congrFun h.cur i
  dinode i _ _ := h.dinode i
  blocks _ _ _ _ _ _ := by rw [h.disk]
  loaded k hk _ := h.loaded k hk

theorem Edits.besides (he : Edits k s s') : Besides (s.icache k).inum s s' where
  sb := he.sb
  cur := he.cur
  dinode := he.dinode
  blocks := he.blocks
  loaded l hl hne := by
    have hlk : l ≠ k := by rintro rfl; exact hne rfl
    rw [State.Loaded, he.others l hlk]
    exact ⟨hl, rfl⟩

/-- One inode has changed. -/
theorem Wf.change {i0 : UInt32} (hw : Wf X s) (h' : Inv s') (hb : Besides i0 s s')
    (hown : WfAt X s' i0) : Wf X s' := by
  refine ⟨h', fun i => ?_⟩
  by_cases hi : i = i0
  · exact hi ▸ hown
  · exact (hw.inode i).congr hw.inv h' hb.sb (hb.cur i hi) (hb.dinode i hi) (hb.blocks i hi)
      fun k hk he => hb.loaded k hk (he ▸ hi)

/-- A file with the same bytes is as well-formed as before. -/
theorem Wf.grows (hw : Wf X s) (hk : s.Loaded k) (hg : Grows k s s') : Wf X s' := by
  have hin := (hw.inv.coh.range k hk.1).2
  have hk' := hg.loaded hk
  have hcur := hw.inv.coh.cur_loaded hk
  have hcur' : s'.cur (s.icache k).inum = (s'.icache k).toDinode := by
    rw [← hg.inum, hg.inv.coh.cur_loaded hk']
  have hlive := hw.inv.live hk
  have hold := hw.inode (s.icache k).inum
  have hd : (s'.icache k).toDinode =
      { (s.icache k).toDinode with addrs := (s'.icache k).addrs } := by
    rw [hg.entry, hg.size]
  refine hw.change hg.inv hg.besides ⟨fun _ => ?_, fun _ _ => ⟨k, hk', hg.inum⟩, fun _ hty => ?_,
    fun hX _ hty => ?_⟩
  · rw [hg.own, hcur', hd]
    have := hold.synced hin
    rw [hcur] at this
    exact this
  · rw [hcur', hd] at hty
    have := hold.entries hlive (by rw [hcur]; exact hty)
    rw [hcur] at this
    rw [hcur', hg.sb, hg.size, content_eq hg.pages]
    exact this
  · rw [hcur', hd] at hty
    obtain ⟨h16, hb⟩ := hold.backed hX hlive (by rw [hcur]; exact hty)
    rw [hcur] at h16 hb
    rw [Backed, hcur', hd]
    refine ⟨h16, fun bn hbn => blockAddr_dinode_of_keep hw.inv hg.inv hg.sb hin hg.own
      (fun bn h0 => ?_) (hb bn hbn)⟩
    rw [hcur] at h0
    rw [hcur, hcur']
    exact hg.keep bn h0

/-- The last reference to an inode without links has been dropped. -/
theorem Wf.reclaimed (hw : Wf X s) (hk : s.Loaded k) (hs : Reclaimed s s' k) :
    Wf X s' ∧ Besides (s.icache k).inum s s' := by
  obtain ⟨h', hcur⟩ := hw.inv.reclaimed hk hs
  have hin := (hw.inv.coh.range k hk.1).2
  have hb : Besides (s.icache k).inum s s' :=
    { sb := hs.sb
      cur := fun i hi => by rw [hcur, update_of_ne hi]
      dinode := fun i hi hin => by rw [hs.dinode i hin, if_neg hi]
      blocks := fun i _ => hw.inv.sameBlocks (fun b hb _ => hs.data b hb) i
      loaded := fun l hl hne => by
        have hlk : l ≠ k := by rintro rfl; exact hne rfl
        rw [State.Loaded, hs.icache, update_of_ne hlk]
        exact ⟨hl, rfl⟩ }
  have hcurk : s'.cur (s.icache k).inum = (s.icache k).toDinode.erased := by
    rw [hcur, update_self]
  have hdead : ¬ Live s'.sb s'.cur (s.icache k).inum := fun hl => hl.2 (by rw [hcurk]; rfl)
  refine ⟨hw.change h' hb ⟨fun _ => ?_, fun hl => absurd hl hdead, fun hl => absurd hl hdead,
    fun _ hl => absurd hl hdead⟩, hb⟩
  rw [hcurk, hs.dinode _ hin, if_pos rfl]

/-- The last reference to an inode with links has been dropped. -/
theorem Wf.drop {f : Inode → Inode} (hw : Wf X s)
    (hf : f (s.icache k) = { s.icache k with ref := 0 })
    (hn : s.Loaded k → (s.icache k).nlink ≠ 0) :
    Wf X (s.setInode k f) ∧ Besides (s.icache k).inum s (s.setInode k f) := by
  obtain ⟨h', hcur⟩ := hw.inv.drop hf
  have hother : ∀ l, s.Loaded l → (s.icache l).inum ≠ (s.icache k).inum →
      (s.setInode k f).Loaded l ∧ ((s.setInode k f).icache l).inum = (s.icache l).inum := by
    intro l hl hne
    have hlk : l ≠ k := by rintro rfl; exact hne rfl
    rw [State.Loaded, setInode_of_ne hlk]
    exact ⟨hl, rfl⟩
  by_cases hk : s.Loaded k
  · rw [if_pos hk] at hcur
    have hin := (hw.inv.coh.range k hk.1).2
    have hlive := hw.inv.live hk
    have hb : Besides (s.icache k).inum s (s.setInode k f) :=
      { sb := rfl
        cur := fun i hi => by rw [hcur, update_of_ne hi]
        dinode := fun _ _ _ => rfl
        blocks := fun _ _ _ _ _ _ => rfl
        loaded := hother }
    have hcurk : (s.setInode k f).cur (s.icache k).inum = s.dinode (s.icache k).inum := by
      rw [hcur, update_self]
    have hold := hw.inode (s.icache k).inum
    have hsync := hold.synced hin
    have hsize := congrArg Dinode.size hsync
    have htype := congrArg Dinode.type hsync
    have hlink := congrArg Dinode.nlink hsync
    dsimp only at hsize htype hlink
    refine ⟨hw.change h' hb ⟨fun _ => by rw [hcurk, setInode_dinode], fun _ h0 => ?_,
      fun _ hty => ?_,
      fun hX _ hty => ?_⟩, hb⟩
    · rw [hcurk, hlink, hw.inv.coh.cur_loaded hk] at h0
      exact absurd h0 (hn hk)
    · rw [hcurk, htype] at hty
      rw [hcurk, hsize]
      exact (hold.entries hlive hty).shrink (Nat.zero_lt_of_lt hw.inv.fmt.geom.root_lt)
        (hw.inv.dinode_addrs hin)
    · rw [hcurk, htype] at hty
      rw [Backed, hcurk, hsize]
      exact hold.backed hX hlive hty
  · rw [if_neg hk] at hcur
    have hs : Same s (s.setInode k f) := ⟨rfl, rfl, hcur, fun l hl => by
      have hlk : l ≠ k := by rintro rfl; exact hk hl
      rw [State.Loaded, setInode_of_ne hlk]
      exact ⟨hl, rfl⟩⟩
    exact ⟨hw.same h' hs, hs.besides _⟩

end Wf
end Xv6.Fs
