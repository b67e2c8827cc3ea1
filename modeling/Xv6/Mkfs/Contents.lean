/-
# What `mkfs` has written

The inodes of the image in the terms of their contents: `FileIs m i t bytes` says
that inode `i` has the type `t`, one link and the contents `bytes`, in blocks that
are exactly those its size needs.  `iappend` appends to one inode, leaves the others
alone and takes the blocks that the larger size needs (`iappend_fileIs`).
-/

import Xv6.Mkfs.Append

namespace Xv6.Mkfs

open Fs Function Lib List

/-- The blocks that a file of `size` bytes takes, with its indirect block. -/
def blocksOf (size : ℕ) : ℕ := (size + 511) / 512 + if 6144 < size then 1 else 0

/-- The image with its bitmaps. -/
def Image.final (m : Image) : Disk := bitmapped m.freeblock.toNat m.disk

/-- The inodes of the image. -/
def Image.cur (m : Image) (i : UInt32) : Dinode :=
  if i.toNat < 3168 then m.dinode i else Dinode.zero

/-- The free blocks. -/
def Image.free (m : Image) : ℕ := (freeBlocks sb m.final).card

/-- The blocks of the image are accounted for. -/
def Books (m : Image) : Prop := Accounted sb m.final (fun b => usedBit sb m.final b = true) m.cur

/-- The inode has exactly the blocks that its size needs. -/
structure Tight (D : Disk) (d : Dinode) : Prop where
  data : ∀ bn < MAXFILE, blockAddr D d bn ≠ 0 ↔ bn * BSIZE < d.size.toNat
  indirect : d.addrs (Fin.last NDIRECT) ≠ 0 ↔ NDIRECT * BSIZE < d.size.toNat

/-- Inode `i` has the type `t` and the contents `bytes`. -/
structure FileIs (m : Image) (i : UInt32) (t : Int16) (bytes : List UInt8) : Prop where
  lt : i.toNat < 3168
  type : (m.dinode i).type = t
  nlink : (m.dinode i).nlink = 1
  size : (m.dinode i).size.toNat = bytes.length
  data : ∀ x, content m.final (m.dinode i) x = bytes.getD x 0
  tight : Tight m.final (m.dinode i)

section Books

variable {m : Image} {i : UInt32} {l : List UInt32} {c : Fs.Slot → Inode}

/-- The inodes are those of the image when one is cached as it is on the disk. -/
theorem cur_oneInode (hi : i.toNat < 3168) : (view m (oneInode i (m.dinode i)) l).cur = m.cur := by
  have hzero : ∀ k, (view m (oneInode i (m.dinode i)) l).Loaded k → k = 0 := fun k hk => by
    by_contra hne
    have := hk.1
    change 0 < (oneInode i (m.dinode i) k).ref at this
    rw [oneInode, if_neg hne] at this
    exact absurd this (lt_irrefl 0)
  funext j
  by_cases hj : j.toNat < 3168
  · rw [Image.cur, if_pos hj]
    by_cases hji : j = i
    · subst hji
      rw [State.cur, if_pos (by exact hj)]
      split
      · next k hk => rw [hzero k (cached_eq_some hk).1]; rfl
      · exact dinode_view hj
    · rw [cur_disk (s := view m (oneInode i (m.dinode i)) l) (by exact hj) fun k hk => ?_,
        dinode_view hj]
      rw [hzero k hk]
      exact Ne.symm hji
  · rw [State.cur, if_neg (by exact hj), Image.cur, if_neg hj]

/-- The kernel's invariant for an image, with one inode cached. -/
theorem inv_oneInode (h : Sound m) (hb : Books m) (hi : i.toNat < 3168)
    (hty : (m.dinode i).type ≠ 0) : Inv (view m (oneInode i (m.dinode i)) l) where
  fmt := formatted_view h
  coh := by
    have hzero : ∀ k, 0 < ((view m (oneInode i (m.dinode i)) l).icache k).ref → k = 0 := by
      intro k hk
      by_contra hne
      change 0 < (oneInode i (m.dinode i) k).ref at hk
      rw [oneInode, if_neg hne] at hk
      exact absurd hk (lt_irrefl 0)
    refine ⟨fun k k' hk hk' _ => (hzero k hk).trans (hzero k' hk').symm, fun k => ?_,
      fun k hk => ?_,
      fun k hk => ?_⟩
    · change 0 ≤ (oneInode i (m.dinode i) k).ref
      rw [oneInode]
      split
      exacts [Int.one_nonneg, le_rfl]
    · rw [hzero k hk]
      exact ⟨rfl, hi⟩
    · rw [hzero k hk.1]
      change (m.dinode i).type ≠ 0 ∧ ((view m (oneInode i (m.dinode i)) l).dinode i).type = _ ∧ _
      rw [dinode_view hi]
      refine ⟨hty, rfl, fun j => ?_⟩
      change ((view m (oneInode i (m.dinode i)) l).dinode i).addrs j = 0 ∨
        ((view m (oneInode i (m.dinode i)) l).dinode i).addrs j = (m.dinode i).addrs j
      rw [dinode_view hi]
      exact .inr rfl
  acct := by
    rw [cur_oneInode hi]
    exact hb

/-- The books from the kernel's invariant. -/
theorem books_of_inv (hi : i.toNat < 3168) (hinv : Inv (view m (oneInode i (m.dinode i)) l)) :
    Books m := by
  have := hinv.acct
  rwa [cur_oneInode hi] at this

end Books

/-! ### Blocks -/

/-- **The blocks that an append takes** are those that the larger size needs. -/
theorem needOf_tight {D : Disk} {d : Dinode} (h : Tight D d) {n : ℕ} (hn : 0 < n)
    (hmax : d.size.toNat + n ≤ MAXFILE * BSIZE) :
    needOf D d (touched d.size.toNat n) + blocksOf d.size.toNat = blocksOf (d.size.toNat + n) := by
  have hdata := h.data
  have hind := h.indirect
  generalize d.size.toNat = z at *
  have hnew : (touched z n).filter (fun bn => blockAddr D d bn = 0) =
      Finset.Ico ((z + 511) / 512) ((z + n + 511) / 512) := by
    ext bn
    rw [Finset.mem_filter, mem_touched, Finset.mem_Ico]
    simp only [MAXFILE, BSIZE] at *
    constructor
    · rintro ⟨⟨hbn, hlt⟩, h0⟩
      have := (hdata bn hbn).not.1 (not_not.2 h0)
      omega
    · intro hbn
      have hlt : bn < 140 := by omega
      refine ⟨⟨hlt, by omega⟩, ?_⟩
      by_contra hne
      have := (hdata bn hlt).1 hne
      omega
  have hone : ((∃ bn ∈ touched z n, NDIRECT ≤ bn) ∧ d.addrs (Fin.last NDIRECT) = 0) ↔
      6144 < z + n ∧ ¬ 6144 < z := by
    simp only [MAXFILE, BSIZE, NDIRECT] at *
    constructor
    · rintro ⟨⟨bn, hbn, hle⟩, h0⟩
      have := mem_touched.1 hbn
      have := hind.not.1 (not_not.2 h0)
      simp only [MAXFILE, BSIZE] at *
      omega
    · rintro ⟨h1, h2⟩
      refine ⟨⟨12, mem_touched.2 ?_, le_rfl⟩, ?_⟩
      · simp only [MAXFILE, BSIZE]
        omega
      · by_contra hne
        have := hind.1 hne
        omega
  rw [needOf, hnew, Nat.card_Ico, blocksOf, blocksOf]
  simp only [hone]
  split_ifs <;> omega

/-- The inode after an append has exactly its blocks. -/
theorem Tight.wrote {s s' : Fs.State} {k : Fs.Slot} {p : ℕ → UInt8} {n : ℕ}
    (h : Tight s.disk (s.icache k).toDinode) (hn : 0 < n)
    (hw : Wrote k p (s.icache k).size.toNat n s n s')
    (hmax : (s.icache k).size.toNat + n ≤ MAXFILE * BSIZE) :
    Tight s'.disk (s'.icache k).toDinode := by
  have hsize : (s'.icache k).size.toNat = (s.icache k).size.toNat + n := by
    rw [hw.size]
    omega
  have hrest := hw.rest
  have hmapped := hw.mapped
  obtain ⟨-, -, hind1, hind2⟩ := hw.all rfl
  have hdata := h.data
  have hind := h.indirect
  simp only [State.addr, State.indirect] at *
  refine ⟨fun bn hbn => ?_, ?_⟩
  · rw [hsize]
    by_cases ht : bn ∈ touched (s.icache k).size.toNat n
    · have := mem_touched.1 ht
      refine ⟨fun _ => by omega, fun _ => hmapped bn ht⟩
    · rw [hrest bn ht, hdata bn hbn]
      rw [mem_touched] at ht
      simp only [MAXFILE, BSIZE] at *
      constructor
      · omega
      · intro hlt
        by_contra hge
        exact ht ⟨hbn, by omega⟩
  · rw [hsize]
    by_cases ht : ∃ bn ∈ touched (s.icache k).size.toNat n, NDIRECT ≤ bn
    · refine ⟨fun _ => ?_, fun _ => hind1 ht⟩
      obtain ⟨bn, hbn, hle⟩ := ht
      have := mem_touched.1 hbn
      simp only [MAXFILE, BSIZE, NDIRECT] at *
      omega
    · rw [hind2 ht, hind]
      simp only [MAXFILE, BSIZE, NDIRECT] at *
      constructor
      · omega
      · intro hlt
        by_contra hge
        exact ht ⟨12, mem_touched.2 (by simp only [MAXFILE, BSIZE]; omega), le_rfl⟩

/-! ### Appending -/

/-- Nothing but inode `i` has changed. -/
structure Step (i : UInt32) (m m' : Image) : Prop where
  sound : Sound m'
  books : Books m'
  dinode : ∀ j ≠ i, j.toNat < 3168 → m'.dinode j = m.dinode j
  blocks : ∀ j ≠ i, Live sb m.cur j → SameBlocks m.final m'.final (m.dinode j)

section Append

variable {m m' : Image} {i j : UInt32} {t : Int16} {bytes : List UInt8}

theorem FileIs.live (h : FileIs m i t bytes) (ht : t ≠ 0) : Live sb m.cur i :=
  ⟨h.lt, by rw [Image.cur, if_pos h.lt, h.type]; exact ht⟩

theorem Tight.congr {D D' : Disk} {d : Dinode} (h : Tight D d) (hs : SameBlocks D D' d) :
    Tight D' d :=
  ⟨fun bn hbn => by rw [blockAddr, holds_congr hs.indirect]; exact h.data bn hbn, h.indirect⟩

/-- The other inodes are as they were. -/
theorem Step.fileIs (hs : Step i m m') (h : FileIs m j t bytes) (hne : j ≠ i) (ht : t ≠ 0) :
    FileIs m' j t bytes := by
  have hd := hs.dinode j hne h.lt
  have hb := hs.blocks j hne (h.live ht)
  refine ⟨h.lt, ?_, ?_, ?_, fun x => ?_, ?_⟩
  · rw [hd, h.type]
  · rw [hd, h.nlink]
  · rw [hd, h.size]
  · rw [hd, hb.content, h.data]
  · rw [hd]
    exact h.tight.congr hb

/-- **`iappend` appends.** -/
theorem iappend_fileIs (h : Sound m) (hb : Books m) (hf : FileIs m i t bytes) (ht : t ≠ 0)
    {p : ℕ → UInt8} {n : ℕ} (hn : 0 < n) (hmax : bytes.length + n ≤ MAXFILE * BSIZE)
    (hcap : blocksOf (bytes.length + n) ≤ m.free + blocksOf bytes.length) :
    ∃ m', iappend i p n m = .ok ((), m') ∧ Step i m m' ∧ m'.freeinode = m.freeinode ∧
      FileIs m' i t (bytes ++ (range n).map p) ∧
      m'.free + blocksOf (bytes.length + n) = m.free + blocksOf bytes.length := by
  have hinv := inv_oneInode (l := []) h hb hf.lt (by rw [hf.type]; exact ht)
  have hneed := needOf_tight hf.tight hn (by rw [hf.size]; exact hmax)
  have hsz := hf.size
  obtain ⟨m', l', hrun, hw, hsound, hfree⟩ := iappend_view (p := p) h hf.lt hinv hn
    (by rw [hsz]; exact hmax) (by
      change needOf m.final (m.dinode i) _ ≤ m.free
      rw [hsz] at hneed ⊢
      omega)
  have hcount := (hw.all rfl).2.1
  change m.free = m'.free + needOf m.final (m.dinode i) _ at hcount
  have hdata := hw.data
  have hsize := hw.size
  have htype := hw.type_eq
  have hentry := hw.entry
  have htight := Tight.wrote (k := 0) (s := view m (oneInode i (m.dinode i)) []) hf.tight hn hw
    (by change (m.dinode i).size.toNat + n ≤ _; rw [hsz]; exact hmax)
  change (m'.dinode i).size.toNat = max (m.dinode i).size.toNat _ at hsize
  change (m'.dinode i).type = (m.dinode i).type at htype
  change content m'.final (m'.dinode i) = overlaid (content m.final (m.dinode i)) _ _ _ at hdata
  have hnlink : (m'.dinode i).nlink = (m.dinode i).nlink := congrArg (fun ip => ip.nlink) hentry
  refine ⟨m', hrun, ⟨hsound, books_of_inv hf.lt hw.inv, fun j hne hj => ?_, fun j hne hl => ?_⟩,
    hfree, ⟨hf.lt, htype.trans hf.type, hnlink.trans hf.nlink, ?_, fun x => ?_, htight⟩, ?_⟩
  · have := hw.dinode j hne hj
    rwa [dinode_view hj, dinode_view hj] at this
  · have := hw.blocks j hne
    rw [cur_oneInode hf.lt] at this
    have := this hl
    rwa [Image.cur, if_pos (show j.toNat < 3168 from hl.1)] at this
  · rw [hsize, hsz, length_append, length_map, length_range]
    omega
  · rw [hdata, overlaid, hsz]
    by_cases hx : x < bytes.length
    · rw [if_neg (by omega), hf.data, getD_append _ _ _ _ hx]
    · rw [getD_append_right _ _ _ _ (by omega)]
      by_cases hx' : x < bytes.length + n
      · rw [if_pos ⟨by omega, hx'⟩, getD_eq_getElem _ _ (by simp; omega)]
        simp
      · rw [if_neg (by omega), hf.data, getD_eq_default _ _ (by omega),
          getD_eq_default _ _ (by simp; omega)]
  · rw [hsz] at hcount hneed
    omega

end Append

/-! ### Storing an inode -/

section Put

variable {m : Image} {i : UInt32} {d : Dinode}

theorem final_put (hi : i.toNat < 3168) {b : ℕ} (hb : IsData sb b) :
    (m.put i d).final b = m.final b := by
  rw [Image.final, bitmapped_of_isData hb, Image.final, bitmapped_of_isData hb]
  have hne : b ≠ (IBLOCK i sb).toNat := fun he => (IBLOCK_facts hi).2.2.2 (he ▸ hb)
  exact update_of_ne hne _ _

theorem usedBit_put {b : ℕ} (hb : IsData sb b) :
    usedBit sb (m.put i d).final b = usedBit sb m.final b := by
  have := isData_iff.1 hb
  rw [Image.final, Image.final, usedBit_bitmapped this.1 this.2.1,
    usedBit_bitmapped this.1 this.2.1]
  rfl

theorem free_put : (m.put i d).free = m.free := by
  refine congrArg Finset.card (Finset.ext fun b => ?_)
  rw [Image.final, Image.final, mem_freeBlocks_bitmapped, mem_freeBlocks_bitmapped]
  rfl

theorem dinode_put (hi : i.toNat < 3168) {j : UInt32} (hj : j.toNat < 3168) :
    (m.put i d).dinode j = if j = i then d else m.dinode j := by
  have := dinode_putInode (s := view m (fun _ => oneInode i d 1) []) geometry_mkfs (i := i) (j := j)
    (by exact hi) (by exact hj) d
  rwa [putInode_view hi, dinode_view hj, dinode_view hj] at this

theorem cur_put (hi : i.toNat < 3168) : (m.put i d).cur = update m.cur i d := by
  funext j
  by_cases hj : j.toNat < 3168
  · rw [Image.cur, if_pos hj, dinode_put hi hj, update_apply, Image.cur, if_pos hj]
  · have hne : j ≠ i := fun he => hj (he ▸ hi)
    rw [Image.cur, if_neg hj, update_of_ne hne, Image.cur, if_neg hj]

/-- The blocks of the inodes are not touched. -/
theorem Books.sameBlocks_put (hb : Books m) (hi : i.toNat < 3168) {j : UInt32}
    (hl : Live sb m.cur j) : SameBlocks m.final (m.put i d).final (m.cur j) := fun k hk h0 =>
  final_put hi (hb.data j hl k hk h0).1

/-- Storing an inode without blocks, or with those it has. -/
theorem Books.put (h : Sound m) (hb : Books m) (hi : i.toNat < 3168)
    (hd : (∀ j, d.addrs j = 0) ∨ d.type = (m.dinode i).type ∧ d.addrs = (m.dinode i).addrs) :
    Step i m (m.put i d) := by
  refine ⟨h.put hi d, ?_, fun j hne hj => ?_, fun j hne hl => ?_⟩
  · rw [Books, cur_put hi]
    have hused : ∀ j, Live sb m.cur j → ∀ k < NHELD, holds m.final (m.cur j) k ≠ 0 →
        usedBit sb (m.put i d).final (holds m.final (m.cur j) k).toNat = true :=
      fun j hl k hk h0 => by
        obtain ⟨hdata, hu⟩ := hb.data j hl k hk h0
        rw [usedBit_put hdata, hu]
    rcases hd with hd | ⟨hty, haddrs⟩
    · exact hb.update (fun j _ hl => (hb.sameBlocks_put hi hl).indirect) (fun j _ => hused j)
        fun _ _ k _ h0 => absurd (holds_eq_zero hd) h0
    · have hframe : Accounted sb (m.put i d).final
          (fun b => usedBit sb (m.put i d).final b = true) m.cur :=
        Accounted.frame hb (fun j hl => (hb.sameBlocks_put hi hl).indirect) hused
      refine hframe.shrink fun _ => ?_
      rw [Image.cur, if_pos hi]
      exact ⟨hty, fun j => .inr (congrFun haddrs j)⟩
  · rw [dinode_put hi hj, if_neg hne]
  · have := hb.sameBlocks_put (d := d) hi hl
    rwa [Image.cur, if_pos (show j.toNat < 3168 from hl.1)] at this

/-- **`ialloc` makes an empty inode.** -/
theorem ialloc_fileIs (h : Sound m) (hb : Books m) (hi : m.freeinode.toNat < 3168) (t : Int16) :
    ∃ m', ialloc t m = .ok (m.freeinode, m') ∧ Step m.freeinode m m' ∧
      m'.freeinode = m.freeinode + 1 ∧ FileIs m' m.freeinode t [] ∧ m'.free = m.free := by
  let d : Dinode := { Dinode.zero with type := t, nlink := 1, size := 0 }
  have hstep : Step m.freeinode m (m.put m.freeinode d) := Books.put h hb hi (.inl fun _ => rfl)
  have hdin : (m.put m.freeinode d).dinode m.freeinode = d := by rw [dinode_put hi hi, if_pos rfl]
  have hheld : ∀ D k, holds D d k = 0 := fun D k => holds_eq_zero fun _ => rfl
  refine ⟨{ m.put m.freeinode d with freeinode := m.freeinode + 1 }, ?_,
    ⟨⟨hstep.sound.super, hstep.sound.boot, hstep.sound.ptr, hstep.sound.zero, hstep.sound.got,
      hstep.sound.nodup⟩, hstep.books,
      hstep.dinode, hstep.blocks⟩, rfl, ⟨hi, ?_, ?_, ?_, fun x => ?_, ?_⟩, free_put⟩
  · rw [ialloc]
    change (winode m.freeinode d >>= fun _ => pure m.freeinode)
      { m with freeinode := m.freeinode + 1 } = _
    rw [bind_of_ok (winode_eq hi d)]
    rfl
  · exact congrArg Dinode.type hdin
  · exact congrArg Dinode.nlink hdin
  · exact congrArg (fun d => d.size.toNat) hdin
  · change content _ ((m.put m.freeinode d).dinode m.freeinode) x = _
    rw [hdin, content, blockAddr, hheld, if_pos rfl]
    rfl
  · change Tight _ ((m.put m.freeinode d).dinode m.freeinode)
    rw [hdin]
    refine ⟨fun bn _ => ?_, ?_⟩
    · rw [blockAddr, hheld]
      exact ⟨fun hc => absurd rfl hc, fun hc => absurd hc (Nat.not_lt_zero _)⟩
    · exact ⟨fun hc => absurd rfl hc, fun hc => absurd hc (Nat.not_lt_zero _)⟩

end Put

end Xv6.Mkfs
