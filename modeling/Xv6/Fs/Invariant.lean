/-
# The invariant of the file system

What holds of the state between the steps of the file-system code: the disk is
formatted (`Formatted`), the inode cache agrees with the disk (`Coherent`), and the
block accounting of the current inodes is right (`Accounted`).  The current inode
(`State.cur`) is the one in the cache when it has been read, the one on the disk
otherwise.

The inode cache is a write-through cache with one exception: `bmap` sets block
addresses in the cached inode only, and they reach the disk with the next
`iupdate`.  So the inode on disk has the same type, and some of the addresses.

The theorems `Inv.…` say that the invariant is kept by each kind of change the
code makes: storing a block of a file, an inode, an entry of an indirect block,
allocating and releasing, and the changes of a cache entry.
-/

import Xv6.Fs.Blocks

namespace Xv6.Fs

open Function Lib State

namespace State

/-- Cache entry `k` is referenced and has been read from the disk. -/
def Loaded (s : State) (k : Slot) : Prop := 0 < (s.icache k).ref ∧ (s.icache k).valid = true

instance (s : State) (k : Slot) : Decidable (s.Loaded k) := inferInstanceAs (Decidable (_ ∧ _))

/-- The cache entry that holds inode `i`. -/
def cached (s : State) (i : UInt32) : Option Slot :=
  slots.find? fun k => 0 < (s.icache k).ref ∧ (s.icache k).valid = true ∧ (s.icache k).inum = i

/-- The inode numbered `i`: the cached one if it has been read, the one on the
disk otherwise. -/
def cur (s : State) (i : UInt32) : Dinode :=
  if i.toNat < s.sb.ninodes.toNat then
    match s.cached i with
    | some k => (s.icache k).toDinode
    | none => s.dinode i
  else Dinode.zero

/-- The bit of block `b` is set. -/
def Used (s : State) (b : ℕ) : Prop := usedBit s.sb s.disk b = true

end State

/-- The inode cache agrees with itself and with the disk. -/
structure Coherent (s : State) : Prop where
  uniq : ∀ k l, 0 < (s.icache k).ref → 0 < (s.icache l).ref →
    (s.icache k).inum = (s.icache l).inum → k = l
  nonneg : ∀ k, 0 ≤ (s.icache k).ref
  range : ∀ k, 0 < (s.icache k).ref →
    (s.icache k).dev = ROOTDEV ∧ (s.icache k).inum.toNat < s.sb.ninodes.toNat
  sync : ∀ k, s.Loaded k → (s.icache k).type ≠ 0 ∧
    (s.dinode (s.icache k).inum).type = (s.icache k).type ∧
    ∀ j, (s.dinode (s.icache k).inum).addrs j = 0 ∨
      (s.dinode (s.icache k).inum).addrs j = (s.icache k).addrs j

/-- **The invariant of the file system.** -/
structure Inv (s : State) : Prop where
  fmt : Formatted s.sb s.disk
  coh : Coherent s
  acct : Accounted s.sb s.disk s.Used s.cur

/-! ### The current inode -/

section Cur

variable {s s' : State} {k : Slot} {i : UInt32}

theorem mem_slots (k : Slot) : k ∈ slots := List.mem_finRange k

theorem cached_eq_some (h : s.cached i = some k) : s.Loaded k ∧ (s.icache k).inum = i := by
  have := List.find?_some h
  simp only [decide_eq_true_eq] at this
  exact ⟨⟨this.1, this.2.1⟩, this.2.2⟩

theorem not_cached (h : s.cached i = none) : ∀ k, s.Loaded k → (s.icache k).inum ≠ i := by
  intro k hk hi
  rw [cached, List.find?_eq_none] at h
  exact h k (mem_slots k) (by simpa using ⟨hk.1, hk.2, hi⟩)

/-- The current inode of a cache entry that has been read. -/
theorem Coherent.cur_loaded (hc : Coherent s) (hk : s.Loaded k) :
    s.cur (s.icache k).inum = (s.icache k).toDinode := by
  rw [cur, if_pos (hc.range k hk.1).2]
  cases hl : s.cached (s.icache k).inum with
  | none => exact absurd rfl (not_cached hl k hk)
  | some l =>
    obtain ⟨hl, hil⟩ := cached_eq_some hl
    rw [hc.uniq l k hl.1 hk.1 hil]

/-- The current inode of a number that is not in the cache. -/
theorem cur_disk (hi : i.toNat < s.sb.ninodes.toNat)
    (h : ∀ k, s.Loaded k → (s.icache k).inum ≠ i) : s.cur i = s.dinode i := by
  rw [cur, if_pos hi]
  cases hl : s.cached i with
  | none => rfl
  | some k => exact absurd (cached_eq_some hl).2 (h k (cached_eq_some hl).1)

/-- The current inode depends on the entries that hold it, and on the disk. -/
theorem cur_congr (hsb : s'.sb = s.sb)
    (hslot : ∀ k, (s'.Loaded k ∧ (s'.icache k).inum = i) ↔ (s.Loaded k ∧ (s.icache k).inum = i))
    (hval : ∀ k, s.Loaded k → (s.icache k).inum = i →
      (s'.icache k).toDinode = (s.icache k).toDinode)
    (hd : i.toNat < s.sb.ninodes.toNat → (∀ k, s.Loaded k → (s.icache k).inum ≠ i) →
      s'.dinode i = s.dinode i) : s'.cur i = s.cur i := by
  have hcached : s'.cached i = s.cached i := by
    unfold cached
    congr 1
    funext k
    have := hslot k
    simp only [State.Loaded, and_assoc] at this
    exact decide_eq_decide.2 this
  rw [State.cur, State.cur, hcached, hsb]
  split_ifs with hi
  · cases hl : s.cached i with
    | none => exact hd hi (not_cached hl)
    | some k => exact hval k (cached_eq_some hl).1 (cached_eq_some hl).2
  · rfl

/-- The inode on disk depends on its block only. -/
theorem dinode_congr (hsb : s'.sb = s.sb)
    (hd : s'.disk (IBLOCK i s.sb).toNat = s.disk (IBLOCK i s.sb).toNat) :
    s'.dinode i = s.dinode i := by
  rw [State.dinode, State.dinode, hsb, hd]

/-- A change of one cache entry that does not concern inode `i`. -/
theorem cur_setInode_of_ne {f : Inode → Inode} (hinum : (f (s.icache k)).inum = (s.icache k).inum)
    (hne : (s.icache k).inum ≠ i) : (s.setInode k f).cur i = s.cur i := by
  refine cur_congr rfl (fun l => ?_) (fun l _ hl => ?_) fun _ _ => rfl
  · by_cases hlk : l = k
    · subst hlk
      simp only [State.Loaded, State.setInode, update_self, hinum]
      exact ⟨fun h => absurd h.2 hne, fun h => absurd h.2 hne⟩
    · simp only [State.Loaded, State.setInode, update_of_ne hlk]
  · have hlk : l ≠ k := fun h => hne (h ▸ hl)
    simp only [State.setInode, update_of_ne hlk]

end Cur

/-! ### The cache entries -/

section SetInode

variable {s : State} {k l : Slot} {f : Inode → Inode}

@[simp] theorem setInode_self : (s.setInode k f).icache k = f (s.icache k) :=
  update_self _ _ _

theorem setInode_of_ne (h : l ≠ k) : (s.setInode k f).icache l = s.icache l :=
  update_of_ne h _ _

@[simp] theorem setInode_disk : (s.setInode k f).disk = s.disk := rfl

@[simp] theorem setInode_dinode (i : UInt32) : (s.setInode k f).dinode i = s.dinode i := rfl

theorem setInode_setInode {g : Inode → Inode} :
    (s.setInode k f).setInode k g = s.setInode k fun ip => g (f ip) := by
  rw [State.setInode, setInode_self, State.setInode, State.setInode, update_idem]

/-- The entry is changed without moving it to another inode. -/
structure Stays (ip ip' : Inode) : Prop where
  inum : ip'.inum = ip.inum
  dev : ip'.dev = ip.dev
  nonneg : 0 ≤ ip'.ref
  ref : 0 < ip'.ref → 0 < ip.ref

/-- The cache stays coherent when an entry that stays keeps or loses its
contents, or has an address set where there was none. -/
theorem Coherent.setInode (h : Coherent s) (hf : Stays (s.icache k) (f (s.icache k)))
    (hsync : 0 < (f (s.icache k)).ref → (f (s.icache k)).valid = true →
      (f (s.icache k)).type ≠ 0 ∧
      (s.dinode (s.icache k).inum).type = (f (s.icache k)).type ∧
      ∀ j, (s.dinode (s.icache k).inum).addrs j = 0 ∨
        (s.dinode (s.icache k).inum).addrs j = (f (s.icache k)).addrs j) :
    Coherent (s.setInode k f) := by
  have hinum : ∀ l, ((s.setInode k f).icache l).inum = (s.icache l).inum := fun l => by
    by_cases hl : l = k
    · subst hl; rw [setInode_self, hf.inum]
    · rw [setInode_of_ne hl]
  have href : ∀ l, 0 < ((s.setInode k f).icache l).ref → 0 < (s.icache l).ref := fun l => by
    by_cases hl : l = k
    · subst hl; rw [setInode_self]; exact hf.ref
    · rw [setInode_of_ne hl]; exact id
  refine ⟨fun l m hl hm he => ?_, fun l => ?_, fun l hl => ?_, fun l hl => ?_⟩
  · rw [hinum, hinum] at he
    exact h.uniq l m (href l hl) (href m hm) he
  · by_cases hl : l = k
    · subst hl; rw [setInode_self]; exact hf.nonneg
    · rw [setInode_of_ne hl]; exact h.nonneg l
  · rw [hinum]
    refine ⟨?_, (h.range l (href l hl)).2⟩
    by_cases hlk : l = k
    · subst hlk; rw [setInode_self, hf.dev]; exact (h.range l (href l hl)).1
    · rw [setInode_of_ne hlk]; exact (h.range l (href l hl)).1
  · rw [hinum, setInode_dinode]
    by_cases hlk : l = k
    · subst hlk
      simp only [State.Loaded, setInode_self] at hl ⊢
      exact hsync hl.1 hl.2
    · simp only [State.Loaded, setInode_of_ne hlk] at hl ⊢
      exact h.sync l hl

/-- The current inodes after a change of an entry that has been read and stays so. -/
theorem Coherent.cur_setInode (h : Coherent (s.setInode k f)) (hk : (s.setInode k f).Loaded k)
    (hinum : (f (s.icache k)).inum = (s.icache k).inum) :
    (s.setInode k f).cur = update s.cur (s.icache k).inum (f (s.icache k)).toDinode := by
  funext i
  by_cases hi : i = (s.icache k).inum
  · subst hi
    have := h.cur_loaded hk
    rw [setInode_self, hinum] at this
    rw [update_self, this]
  · rw [update_of_ne hi, cur_setInode_of_ne hinum (Ne.symm hi)]

end SetInode

/-! ### Changes of the disk -/

variable {s : State}

theorem used_store {b : UInt32} {blk : Block}
    (h : ∀ g, b.toNat ≠ s.sb.bitmapBlock g) : (s.store b blk).Used = s.Used := by
  funext c
  unfold State.Used
  rw [store_sb, store_disk, usedBit_congr fun g => update_of_ne (h g).symm _ _]

/-- A block that was just allocated: a used data block nobody holds, zeroed. -/
structure Fresh (s : State) (a : UInt32) : Prop where
  isData : IsData s.sb a.toNat
  used : s.Used a.toNat
  notHeld : ¬ Held s.sb s.disk s.cur a
  zero : s.disk a.toNat = Buf.zero

/-- The state with `d` stored as inode `i` of the disk. -/
def State.putInode (s : State) (i : UInt32) (d : Dinode) : State :=
  s.store (IBLOCK i s.sb) (putDinode (s.disk (IBLOCK i s.sb).toNat) (i.toNat % IPB) d)

@[simp] theorem putInode_sb (s : State) (i : UInt32) (d : Dinode) :
    (s.putInode i d).sb = s.sb := rfl

@[simp] theorem putInode_icache (s : State) (i : UInt32) (d : Dinode) :
    (s.putInode i d).icache = s.icache := rfl

theorem putInode_putInode (s : State) (i : UInt32) (d d' : Dinode) :
    (s.putInode i d).putInode i d' = { s.putInode i d' with
      logged := s.logged ++ [IBLOCK i s.sb, IBLOCK i s.sb] } := by
  simp only [putInode, store, update_self, update_idem, putDinode,
    Buf.overlay_overlay, List.append_assoc, List.cons_append, List.nil_append]

/-- The cache and the disk are changed independently. -/
theorem setInode_putInode (s : State) (k : Slot) (f : Inode → Inode) (i : UInt32) (d : Dinode) :
    (s.setInode k f).putInode i d = (s.putInode i d).setInode k f := rfl

variable {i : UInt32}

@[simp] theorem wp_storeDinode {E : Fail → Prop} {Q : PUnit → State → Prop} {d : Dinode} :
    wp (storeDinode i d) E Q s ↔ Q ⟨⟩ (s.putInode i d) := by
  simp only [storeDinode, bread, logWrite, wp_bind, wp_get, wp_pure, wp_modify, State.putInode]

/-- The inodes on the disk after one of them is stored. -/
theorem dinode_putInode (h : Geometry s.sb) {j : UInt32}
    (hi : i.toNat < s.sb.ninodes.toNat) (hj : j.toNat < s.sb.ninodes.toNat) (d : Dinode) :
    (s.putInode i d).dinode j = if j = i then d else s.dinode j := by
  unfold dinode putInode
  rw [store_sb, store_disk]
  by_cases hb : (IBLOCK j s.sb).toNat = (IBLOCK i s.sb).toNat
  · rw [hb, update_self]
    by_cases hm : j.toNat % IPB = i.toNat % IPB
    · rw [hm, getDinode_putDinode (Nat.mod_lt _ (by decide)), if_pos (h.IBLOCK_inj
        (hj.trans_le h.ninodes_le) (hi.trans_le h.ninodes_le) (UInt32.toNat_inj.1 hb) hm)]
    · rw [getDinode_putDinode_of_ne hm, if_neg (by rintro rfl; exact hm rfl)]
  · rw [update_of_ne hb, if_neg (by rintro rfl; exact hb rfl)]

/-- Storing an inode leaves the format, the bits and all files alone. -/
theorem putInode_frame (hf : Formatted s.sb s.disk)
    (hi : i.toNat < s.sb.ninodes.toNat) (d : Dinode) :
    Formatted s.sb (s.putInode i d).disk ∧ (s.putInode i d).Used = s.Used ∧
      ∀ b, IsData s.sb b → (s.putInode i d).disk b = s.disk b := by
  have hg := hf.geom.toGroupGeom
  have hin := hi.trans_le hf.geom.ninodes_le
  refine ⟨hf.update ?_ (hg.IBLOCK_ne_bitmapBlock hin) _, used_store (hg.IBLOCK_ne_bitmapBlock hin),
    fun b hb => update_of_ne (hb.ne_IBLOCK hg hin) _ _⟩
  rw [hg.IBLOCK_toNat hin, Superblock.groupStart, Nat.add_assoc]
  exact hf.geom.two_le.trans (Nat.le_add_right _ _)

namespace Inv

variable {s s' : State} {k : Slot} {i a b : UInt32}

variable (h : Inv s)

include h

/-- A change of the disk that keeps the format, the inodes and the books. -/
theorem of_disk {s' : State} (hsb : s'.sb = s.sb) (hic : s'.icache = s.icache)
    (hfmt : Formatted s.sb s'.disk)
    (hino : ∀ i, i.toNat < s.sb.ninodes.toNat → s'.dinode i = s.dinode i)
    (hacct : Accounted s.sb s'.disk s'.Used s.cur) : Inv s' ∧ s'.cur = s.cur := by
  have hcur : s'.cur = s.cur := funext fun i =>
    cur_congr hsb (by simp [State.Loaded, hic]) (by simp [hic]) fun hi _ => hino i hi
  refine ⟨⟨hsb ▸ hfmt, ?_, by rwa [hsb, hcur]⟩, hcur⟩
  refine ⟨hic ▸ h.coh.uniq, hic ▸ h.coh.nonneg, by rw [hic, hsb]; exact h.coh.range, ?_⟩
  intro k hk
  have hk' : s.Loaded k := by rwa [State.Loaded, hic] at hk
  rw [hic, hino _ (h.coh.range k hk'.1).2]
  exact h.coh.sync k hk'

/-- What an allocated inode holds is a used data block. -/
theorem isData (hi : Live s.sb s.cur i) {k : ℕ} (hk : k < NHELD)
    (h0 : holds s.disk (s.cur i) k ≠ 0) :
    IsData s.sb (holds s.disk (s.cur i) k).toNat ∧ s.Used (holds s.disk (s.cur i) k).toNat :=
  h.acct.data i hi k hk h0

/-- A change of the disk outside the used data blocks leaves all files alone. -/
theorem sameBlocks {D : Disk} (hD : ∀ b, IsData s.sb b → s.Used b → D b = s.disk b) :
    ∀ i, Live s.sb s.cur i → SameBlocks s.disk D (s.cur i) :=
  fun _ hi _ hk h0 => hD _ (h.isData hi hk h0).1 (h.isData hi hk h0).2

theorem geom : GroupGeom s.sb := h.fmt.geom.toGroupGeom

/-- The number of an inode is in the range of the groups. -/
theorem inum_lt (hi : i.toNat < s.sb.ninodes.toNat) :
    i.toNat < s.sb.ngroups.toNat * s.sb.ipg.toNat := hi.trans_le h.fmt.geom.ninodes_le

theorem two_le {b : ℕ} (hb : IsData s.sb b) : 2 ≤ b :=
  h.fmt.geom.two_le.trans hb.1

theorem print (msg : String) : Inv (s.print msg) ∧ (s.print msg).cur = s.cur :=
  h.of_disk rfl rfl h.fmt (fun _ _ => rfl) h.acct

/-- The inode of a cache entry that has been read is allocated. -/
theorem live (hk : s.Loaded k) : Live s.sb s.cur (s.icache k).inum := by
  refine ⟨(h.coh.range k hk.1).2, ?_⟩
  rw [h.coh.cur_loaded hk]
  exact (h.coh.sync k hk).1

/-- **Allocating a block**: it becomes a fresh one, and no file changes. -/
theorem allocated (hb : b.toNat ∈ freeBlocks s.sb s.disk) :
    Inv (s.allocated b) ∧ (s.allocated b).cur = s.cur ∧ Fresh (s.allocated b) b ∧
      ∀ i, Live s.sb s.cur i → SameBlocks s.disk (s.allocated b).disk (s.cur i) := by
  obtain ⟨⟨hb1, hb2⟩, hbit⟩ := mem_freeBlocks.1 hb
  have hdata := h.fmt.isData_of_usedBit hb1 hb2 hbit
  have hbm := fun g => hdata.ne_bitmapBlock h.geom.bits g
  have hother : ∀ c, c ≠ b.toNat → (∀ g, c ≠ s.sb.bitmapBlock g) →
      (s.allocated b).disk c = s.disk c := fun c hc hcm => by
    rw [allocated_disk, update_of_ne hc, setUsed_of_ne hcm]
  have hused : ∀ c, IsData s.sb c →
      usedBit s.sb (s.allocated b).disk c = if c = b.toNat then true else usedBit s.sb s.disk c :=
    fun c hc => by
      rw [← usedBit_setUsed h.geom.bits hb1 hb2 hc.1 hc.2.1]
      exact usedBit_congr (fun g => update_of_ne (hbm g).symm _ _) c
  have hsame := h.sameBlocks (D := (s.allocated b).disk) fun c hc hu =>
    hother c (fun he => by rw [State.Used, he, hbit] at hu; exact Bool.noConfusion hu)
      fun g => hc.ne_bitmapBlock h.geom.bits g
  have hacct : Accounted s.sb (s.allocated b).disk (s.allocated b).Used s.cur := by
    refine h.acct.frame (fun i hi => (hsame i hi).indirect) fun i hi k hk h0 => ?_
    rw [State.Used, allocated_sb, hused _ (h.isData hi hk h0).1]
    split_ifs
    · rfl
    · exact (h.isData hi hk h0).2
  obtain ⟨hinv, hcur⟩ := @of_disk s h (s.allocated b) rfl rfl
    ((h.fmt.setUsed hdata true).update (h.two_le hdata) hbm _)
    (fun i hi => dinode_congr rfl (hother _ (hdata.ne_IBLOCK h.geom (h.inum_lt hi)).symm
      (h.geom.IBLOCK_ne_bitmapBlock (h.inum_lt hi)))) hacct
  refine ⟨hinv, hcur, ⟨hdata, ?_, ?_, update_self _ _ _⟩, hsame⟩
  · rw [State.Used, show (s.allocated b).sb = s.sb from rfl, hused _ hdata, if_pos rfl]
  · rintro ⟨i, hi, k, hk, he⟩
    rw [hcur] at hi he
    rw [holds_congr (hsame i hi).indirect] at he
    have hne : holds s.disk (s.cur i) k ≠ 0 := by
      rw [he]
      rintro rfl
      exact absurd (h.two_le hdata) (by decide)
    have := (h.isData hi hk hne).2
    rw [he, State.Used, hbit] at this
    exact Bool.noConfusion this

/-- Storing a block as it is changes nothing. -/
theorem store_same (b : UInt32) :
    Inv (s.store b (s.disk b.toNat)) ∧ (s.store b (s.disk b.toNat)).cur = s.cur := by
  have hD : (s.store b (s.disk b.toNat)).disk = s.disk := update_eq_self _ _
  have hused : (s.store b (s.disk b.toNat)).Used = s.Used := by
    funext c; rw [State.Used, State.Used, hD, store_sb]
  exact h.of_disk rfl rfl (by rw [hD]; exact h.fmt) (fun i _ => dinode_congr rfl (by rw [hD]))
    (by rw [hD, hused]; exact h.acct)

/-- A block is held in one place. -/
theorem held_inj {j : UInt32} (hi : Live s.sb s.cur i) (hj : Live s.sb s.cur j)
    {l m : ℕ} (hl : l < NHELD) (hm : m < NHELD) (h0 : holds s.disk (s.cur i) l ≠ 0)
    (he : (holds s.disk (s.cur i) l).toNat = (holds s.disk (s.cur j) m).toNat) : i = j ∧ l = m :=
  h.acct.inj i j hi hj l hl m hm h0 (UInt32.toNat_inj.1 he)

/-- The blocks of a file are different. -/
theorem blockAddr_ne (hi : Live s.sb s.cur i) {bn bn' : ℕ} (hbn : bn < MAXFILE)
    (hbn' : bn' < MAXFILE) (hne : bn' ≠ bn) (h0 : blockAddr s.disk (s.cur i) bn' ≠ 0) :
    (blockAddr s.disk (s.cur i) bn').toNat ≠ (blockAddr s.disk (s.cur i) bn).toNat :=
  fun he => hne (dataPlace_inj
    (h.held_inj hi hi (dataPlace_lt hbn') (dataPlace_lt hbn) h0 he).2)

/-- Storing a block of one inode leaves the blocks of the others alone. -/
theorem sameBlocks_store {j : UInt32} (hj : Live s.sb s.cur j) {m : ℕ} (hm : m < NHELD)
    (ha : holds s.disk (s.cur j) m = a) (blk : Block) :
    ∀ i ≠ j, Live s.sb s.cur i → SameBlocks s.disk (s.store a blk).disk (s.cur i) :=
  fun _ hij hi _ hl hl0 =>
    update_of_ne (fun he => hij (h.held_inj hi hj hl hm hl0 (ha ▸ he)).1) _ _

/-- **Storing a block of a file.** -/
theorem store_data (hk : s.Loaded k) {bn : ℕ} (hbn : bn < MAXFILE) (blk : Block)
    (ha : blockAddr s.disk (s.icache k).toDinode bn = a) (h0 : a ≠ 0) :
    Inv (s.store a blk) ∧ (s.store a blk).cur = s.cur := by
  have hlive := h.live hk
  have hp := dataPlace_lt hbn
  replace ha : holds s.disk (s.cur (s.icache k).inum) (dataPlace bn) = a := by
    rwa [h.coh.cur_loaded hk]
  have hdata : IsData s.sb a.toNat := by
    rw [← ha] at h0 ⊢
    exact (h.isData hlive hp h0).1
  refine h.of_disk rfl rfl (h.fmt.update (h.two_le hdata) (hdata.ne_bitmapBlock h.geom.bits) _)
    (fun i hi => dinode_congr rfl (update_of_ne
      (hdata.ne_IBLOCK h.geom (h.inum_lt hi)).symm _ _)) ?_
  refine h.acct.frame (fun i hi hi0 => ?_) fun i hi l hl hl0 => ?_
  · refine update_of_ne (fun he => ?_) _ _
    rw [← holds_indirect (D := s.disk)] at hi0 he
    rw [← ha] at he
    exact dataPlace_ne_indirect bn (h.held_inj hi hlive (by decide) hp hi0 he).2.symm
  · rw [used_store (hdata.ne_bitmapBlock h.geom.bits)]
    exact (h.isData hi hl hl0).2

/-- **Setting an entry of the indirect block** to a fresh block. -/
theorem store_entry (hk : s.Loaded k) {ind : UInt32} {j : ℕ} (hj : j < NINDIRECT)
    (hind : (s.icache k).addrs (Fin.last NDIRECT) = ind) (h0 : ind ≠ 0)
    (ha : Fresh s a) : Inv (s.store ind ((s.disk ind.toNat).putU32 (4 * j) a)) ∧
      (s.store ind ((s.disk ind.toNat).putU32 (4 * j) a)).cur = s.cur := by
  have hlive := h.live hk
  have hcur := h.coh.cur_loaded hk
  have hp : NDIRECT < NHELD := by decide
  rw [← congrArg (·.addrs (Fin.last NDIRECT)) hcur] at hind
  have hplace : holds s.disk (s.cur (s.icache k).inum) NDIRECT = ind := by rwa [holds_indirect]
  have hdata : IsData s.sb ind.toNat := by
    rw [← hplace] at h0 ⊢
    exact (h.isData hlive hp h0).1
  have hholds := holds_putEntry (D := s.disk) (a := a) hind h0 hj
  generalize (s.disk ind.toNat).putU32 (4 * j) a = blk at hholds ⊢
  have hothers := h.sameBlocks_store hlive hp hplace blk
  refine h.of_disk rfl rfl (h.fmt.update (h.two_le hdata) (hdata.ne_bitmapBlock h.geom.bits) _)
    (fun i hi => dinode_congr rfl (update_of_ne
      (hdata.ne_IBLOCK h.geom (h.inum_lt hi)).symm _ _)) ?_
  have hacct := h.acct.insert hlive ((hholds (13 + j)).trans (if_pos rfl))
    (fun l _ hl => (hholds l).trans (if_neg hl)) (fun i hi hil => (hothers i hi hil).indirect)
      ha.isData ha.used ha.notHeld
  rw [update_eq_self] at hacct
  rwa [used_store (hdata.ne_bitmapBlock h.geom.bits)]

/-! ### Inodes on the disk -/

/-- The cache stays coherent when the stored inode agrees with the entry that
holds it. -/
theorem coherent_putInode (hi : i.toNat < s.sb.ninodes.toNat) {d : Dinode}
    (hsync : ∀ k, s.Loaded k → (s.icache k).inum = i → d.type = (s.icache k).type ∧
      ∀ j, d.addrs j = 0 ∨ d.addrs j = (s.icache k).addrs j) : Coherent (s.putInode i d) := by
  refine ⟨h.coh.uniq, h.coh.nonneg, h.coh.range, fun k hk => ?_⟩
  rw [putInode_icache, dinode_putInode h.fmt.geom hi (h.coh.range k hk.1).2]
  split_ifs with hki
  · exact ⟨(h.coh.sync k hk).1, hsync k hk hki⟩
  · exact h.coh.sync k hk

/-- **`iupdate`**: the disk gets the inode of a cache entry that has been read. -/
theorem iupdate (hk : s.Loaded k) :
    Inv (s.putInode (s.icache k).inum (s.icache k).toDinode) ∧
      (s.putInode (s.icache k).inum (s.icache k).toDinode).cur = s.cur := by
  have hin := (h.coh.range k hk.1).2
  obtain ⟨hfmt, hused, hdata⟩ := putInode_frame h.fmt hin (s.icache k).toDinode
  have hcoh := h.coherent_putInode (d := (s.icache k).toDinode) hin fun l hl he => by
    rw [h.coh.uniq l k hl.1 hk.1 he]
    exact ⟨rfl, fun _ => .inr rfl⟩
  have hcur : (s.putInode (s.icache k).inum (s.icache k).toDinode).cur = s.cur :=
    funext fun j => cur_congr rfl (fun _ => Iff.rfl) (fun _ _ _ => rfl) fun hj hnot => by
      rw [dinode_putInode h.fmt.geom hin hj, if_neg fun he => hnot k hk he.symm]
  have hsame := h.sameBlocks fun b hb _ => hdata b hb
  refine ⟨⟨hfmt, hcoh, ?_⟩, hcur⟩
  rw [hcur, hused]
  exact h.acct.frame (fun i hi => (hsame i hi).indirect) fun i hi l hl h0 => (h.isData hi hl h0).2

omit h

/-! ### Cache entries -/

section Cache

variable {f : Inode → Inode}

variable (h : Inv s)

include h

/-- **Setting a block address** of a cached inode to a fresh block. -/
theorem setAddr (hk : s.Loaded k) {j : Fin (NDIRECT + 1)}
    (h0 : (s.icache k).addrs j = 0) (ha : Fresh s a) :
    Inv (s.setInode k (·.setAddr j a)) ∧
      (s.setInode k (·.setAddr j a)).cur =
        update s.cur (s.icache k).inum ((s.icache k).setAddr j a).toDinode := by
  have hlive := h.live hk
  have hcur := h.coh.cur_loaded hk
  obtain ⟨hty0, hty, haddrs⟩ := h.coh.sync k hk
  have hcoh : Coherent (s.setInode k (·.setAddr j a)) := by
    refine h.coh.setInode ⟨rfl, rfl, h.coh.nonneg k, id⟩ fun _ _ => ⟨hty0, hty, fun l => ?_⟩
    rw [Inode.setAddr, Dinode.setAddr_addrs]
    split_ifs with hl
    · subst hl
      rcases haddrs l with h' | h'
      · exact .inl h'
      · exact .inl (h'.trans h0)
    · exact haddrs l
  have hcur' := hcoh.cur_setInode (by rw [State.Loaded, setInode_self]; exact hk) rfl
  have hholds := holds_setAddr (d := (s.icache k).toDinode) h0 ha.zero
  refine ⟨⟨h.fmt, hcoh, ?_⟩, hcur'⟩
  rw [hcur']
  exact h.acct.insert hlive ((hholds j).trans (if_pos rfl))
    (fun l _ hl => by rw [hcur]; exact (hholds l).trans (if_neg hl)) (fun _ _ _ _ => rfl) ha.isData
      ha.used ha.notHeld

/-- **Changing the other fields** of a cache entry that has been read, or giving
up some of its addresses. -/
theorem setFields (hk : s.Loaded k) (hk' : (s.setInode k f).Loaded k)
    (hinum : (f (s.icache k)).inum = (s.icache k).inum)
    (hdev : (f (s.icache k)).dev = (s.icache k).dev)
    (hty : (f (s.icache k)).type = (s.icache k).type)
    (haddrs : (f (s.icache k)).addrs = (s.icache k).addrs) :
    Inv (s.setInode k f) ∧ (s.setInode k f).cur =
      update s.cur (s.icache k).inum (f (s.icache k)).toDinode := by
  have hcoh : Coherent (s.setInode k f) := by
    refine h.coh.setInode ⟨hinum, hdev, ?_, fun _ => hk.1⟩ fun _ _ => ?_
    · have := hk'.1
      rw [setInode_self] at this
      omega
    · rw [hty, haddrs]
      exact h.coh.sync k hk
  have hcur' := hcoh.cur_setInode hk' hinum
  have hsame : (f (s.icache k)).toDinode.type ≠ 0 →
      (f (s.icache k)).toDinode.type = (s.cur (s.icache k).inum).type ∧
      ∀ j, (f (s.icache k)).toDinode.addrs j = 0 ∨
        (f (s.icache k)).toDinode.addrs j = (s.cur (s.icache k).inum).addrs j := by
    rw [h.coh.cur_loaded hk]
    exact fun _ => ⟨hty, fun j => .inr (by rw [haddrs])⟩
  exact ⟨⟨h.fmt, hcoh, hcur' ▸ h.acct.shrink hsame⟩, hcur'⟩

/-- **Changing fields of a cache entry and storing it** with `iupdate`. -/
theorem setFields_iupdate (hk : s.Loaded k) (hk' : (s.setInode k f).Loaded k)
    (hinum : (f (s.icache k)).inum = (s.icache k).inum)
    (hdev : (f (s.icache k)).dev = (s.icache k).dev)
    (hty : (f (s.icache k)).type = (s.icache k).type)
    (haddrs : (f (s.icache k)).addrs = (s.icache k).addrs)
    (hs' : s' = (s.setInode k f).putInode (s.icache k).inum (f (s.icache k)).toDinode) :
    Inv s' ∧
      s'.cur = update s.cur (s.icache k).inum (f (s.icache k)).toDinode ∧
      (∀ b, IsData s.sb b → s'.disk b = s.disk b) ∧ s'.Used = s.Used ∧
      ∀ j : UInt32, j.toNat < s.sb.ninodes.toNat →
        s'.dinode j = if j = (s.icache k).inum then (f (s.icache k)).toDinode else s.dinode j := by
  obtain ⟨hinv, hcur⟩ := h.setFields hk hk' hinum hdev hty haddrs
  obtain ⟨hinv', hcur'⟩ := hinv.iupdate hk'
  have hin := (h.coh.range k hk.1).2
  rw [setInode_self, hinum, ← hs'] at hinv' hcur'
  obtain ⟨-, hused, hdata⟩ := putInode_frame (s := s.setInode k f) hinv.fmt hin
    (f (s.icache k)).toDinode
  refine ⟨hinv', hcur'.trans hcur, hs' ▸ hdata, hs' ▸ hused, fun j hj => ?_⟩
  rw [hs', dinode_putInode hinv.fmt.geom hin hj, setInode_dinode]

/-- **Changing an entry that has not been read** and stays so. -/
theorem setUnread (hk : ¬ s.Loaded k) (hk' : ¬ (s.setInode k f).Loaded k)
    (hcoh : Coherent (s.setInode k f)) : Inv (s.setInode k f) ∧ (s.setInode k f).cur = s.cur := by
  have hcur : (s.setInode k f).cur = s.cur := funext fun i => by
    refine cur_congr rfl (fun l => ?_) (fun l hl _ => ?_) fun _ _ => rfl
    · by_cases hlk : l = k
      · subst hlk
        exact ⟨fun hl => absurd hl.1 hk', fun hl => absurd hl.1 hk⟩
      · rw [State.Loaded, State.Loaded, setInode_of_ne hlk]
    · rw [setInode_of_ne (by rintro rfl; exact hk hl)]
  exact ⟨⟨h.fmt, hcoh, hcur ▸ h.acct⟩, hcur⟩

/-- **Changing the reference count or the lock** of an entry that stays in use or
stays free. -/
theorem setBook (hd : (f (s.icache k)).toDinode = (s.icache k).toDinode)
    (hinum : (f (s.icache k)).inum = (s.icache k).inum)
    (hdev : (f (s.icache k)).dev = (s.icache k).dev)
    (hvalid : (f (s.icache k)).valid = (s.icache k).valid) (hnn : 0 ≤ (f (s.icache k)).ref)
    (href : 0 < (f (s.icache k)).ref ↔ 0 < (s.icache k).ref) :
    Inv (s.setInode k f) ∧ (s.setInode k f).cur = s.cur := by
  have hiff : (s.setInode k f).Loaded k ↔ s.Loaded k := by
    rw [State.Loaded, State.Loaded, setInode_self, href, hvalid]
  by_cases hk : s.Loaded k
  · obtain ⟨hinv, hcur⟩ := h.setFields hk (hiff.2 hk) hinum hdev (congrArg Dinode.type hd)
      (congrArg Dinode.addrs hd)
    refine ⟨hinv, ?_⟩
    rw [hcur, hd, ← h.coh.cur_loaded hk, update_eq_self]
  · refine h.setUnread hk (mt hiff.1 hk) (h.coh.setInode ⟨hinum, hdev, hnn, href.1⟩ ?_)
    exact fun hr hv => absurd ⟨href.1 hr, hvalid ▸ hv⟩ hk

/-- **`ilock`** reads an inode that was not in the cache. -/
theorem load (href : 0 < (s.icache k).ref) (hinv : (s.icache k).valid = false)
    (hty : (s.dinode (s.icache k).inum).type ≠ 0)
    (hf : f (s.icache k) = { s.icache k with
      toDinode := s.dinode (s.icache k).inum, valid := true }) :
    Inv (s.setInode k f) ∧ (s.setInode k f).cur = s.cur := by
  have hcoh : Coherent (s.setInode k f) := by
    refine h.coh.setInode ⟨by rw [hf], by rw [hf], by rw [hf]; exact h.coh.nonneg k, fun _ => href⟩
      fun _ _ => ?_
    rw [hf]
    exact ⟨hty, rfl, fun _ => .inr rfl⟩
  have hcur : (s.setInode k f).cur = s.cur := funext fun i => by
    by_cases hi : i = (s.icache k).inum
    · have hnew := hcoh.cur_loaded (k := k) (by
        rw [State.Loaded, setInode_self, hf]; exact ⟨href, rfl⟩)
      have hold : s.cur (s.icache k).inum = s.dinode (s.icache k).inum := by
        refine cur_disk (h.coh.range k href).2 fun l hl he => ?_
        rw [h.coh.uniq l k hl.1 href he, State.Loaded, hinv] at hl
        exact Bool.noConfusion hl.2
      rw [setInode_self, hf] at hnew
      rw [hi, hnew, hold]
    · exact cur_setInode_of_ne (by rw [hf]) (Ne.symm hi)
  exact ⟨⟨h.fmt, hcoh, hcur ▸ h.acct⟩, hcur⟩

/-- **`iput`** drops the last reference: the inode in memory is forgotten. -/
theorem drop (hf : f (s.icache k) = { s.icache k with ref := 0 }) :
    Inv (s.setInode k f) ∧ (s.setInode k f).cur =
      if s.Loaded k then update s.cur (s.icache k).inum (s.dinode (s.icache k).inum)
      else s.cur := by
  have hcoh : Coherent (s.setInode k f) := by
    refine h.coh.setInode ⟨by rw [hf], by rw [hf], by rw [hf], ?_⟩ ?_
    · rw [hf]; exact fun h' => absurd h' (lt_irrefl 0)
    · rw [hf]; exact fun h' => absurd h' (lt_irrefl 0)
  have hnot : ¬ (s.setInode k f).Loaded k := by
    rw [State.Loaded, setInode_self, hf]
    exact fun h' => absurd h'.1 (lt_irrefl 0)
  split_ifs with hk
  · have hcur : (s.setInode k f).cur =
        update s.cur (s.icache k).inum (s.dinode (s.icache k).inum) := funext fun i => by
      by_cases hi : i = (s.icache k).inum
      · subst hi
        rw [update_self, cur_disk (s := s.setInode k f) (h.coh.range k hk.1).2, setInode_dinode]
        intro l hl he
        by_cases hlk : l = k
        · exact hnot (hlk ▸ hl)
        · rw [State.Loaded, setInode_of_ne hlk] at hl
          rw [setInode_of_ne hlk] at he
          exact hlk (h.coh.uniq l k hl.1 hk.1 he)
      · rw [update_of_ne hi]
        exact cur_setInode_of_ne (by rw [hf]) (Ne.symm hi)
    have hsame : (s.dinode (s.icache k).inum).type ≠ 0 →
        (s.dinode (s.icache k).inum).type = (s.cur (s.icache k).inum).type ∧
        ∀ j, (s.dinode (s.icache k).inum).addrs j = 0 ∨
          (s.dinode (s.icache k).inum).addrs j = (s.cur (s.icache k).inum).addrs j := by
      rw [h.coh.cur_loaded hk]
      exact fun _ => (h.coh.sync k hk).2
    exact ⟨⟨h.fmt, hcoh, hcur ▸ h.acct.shrink hsame⟩, hcur⟩
  · exact h.setUnread hk hnot hcoh

/-- **`iget`** recycles a free entry. -/
theorem recycle (hfree : (s.icache k).ref = 0) (hi : i.toNat < s.sb.ninodes.toNat)
    (hnew : ∀ l, 0 < (s.icache l).ref → (s.icache l).inum ≠ i)
    (hf : f (s.icache k) =
      { s.icache k with dev := ROOTDEV, inum := i, ref := 1, valid := false }) :
    Inv (s.setInode k f) ∧ (s.setInode k f).cur = s.cur := by
  refine h.setUnread ?_ ?_ ?_
  · rw [State.Loaded, hfree]; exact fun h' => absurd h'.1 (lt_irrefl 0)
  · rw [State.Loaded, setInode_self, hf]; exact fun h' => Bool.noConfusion h'.2
  · refine ⟨fun l m hl hm he => ?_, fun l => ?_, fun l hl => ?_, fun l hl => ?_⟩
    · by_cases hlk : l = k <;> by_cases hmk : m = k
      · rw [hlk, hmk]
      · subst hlk
        rw [setInode_of_ne hmk] at hm he
        rw [setInode_self, hf] at he
        exact absurd he.symm (hnew m hm)
      · subst hmk
        rw [setInode_of_ne hlk] at hl he
        rw [setInode_self, hf] at he
        exact absurd he (hnew l hl)
      · rw [setInode_of_ne hlk] at hl he
        rw [setInode_of_ne hmk] at hm he
        exact h.coh.uniq l m hl hm he
    · by_cases hlk : l = k
      · subst hlk; rw [setInode_self, hf]; exact Int.one_nonneg
      · rw [setInode_of_ne hlk]; exact h.coh.nonneg l
    · by_cases hlk : l = k
      · subst hlk; rw [setInode_self, hf]; exact ⟨rfl, hi⟩
      · rw [setInode_of_ne hlk] at hl ⊢; exact h.coh.range l hl
    · by_cases hlk : l = k
      · subst hlk
        rw [State.Loaded, setInode_self, hf] at hl
        exact Bool.noConfusion hl.2
      · rw [State.Loaded, setInode_of_ne hlk] at hl
        rw [setInode_of_ne hlk]
        exact h.coh.sync l hl

/-- **An entry without references** may be set to anything that has none. -/
theorem forget (hfree : (s.icache k).ref = 0) (hf : (f (s.icache k)).ref = 0) :
    Inv (s.setInode k f) ∧ (s.setInode k f).cur = s.cur := by
  have hused : ∀ l, 0 < ((s.setInode k f).icache l).ref → l ≠ k := by
    rintro l hl rfl
    rw [setInode_self, hf] at hl
    exact lt_irrefl 0 hl
  refine h.setUnread ?_ (fun hk => hused k hk.1 rfl) ⟨fun l m hl hm he => ?_, fun l => ?_,
    fun l hl => ?_, fun l hl => ?_⟩
  · rw [State.Loaded, hfree]
    exact fun h' => absurd h'.1 (lt_irrefl 0)
  · have hlk := hused l hl
    have hmk := hused m hm
    rw [setInode_of_ne hlk] at hl he
    rw [setInode_of_ne hmk] at hm he
    exact h.coh.uniq l m hl hm he
  · by_cases hlk : l = k
    · subst hlk
      rw [setInode_self, hf]
    · rw [setInode_of_ne hlk]
      exact h.coh.nonneg l
  · have hlk := hused l hl
    rw [setInode_of_ne hlk] at hl ⊢
    exact h.coh.range l hl
  · have hlk := hused l hl.1
    rw [State.Loaded, setInode_of_ne hlk] at hl
    rw [setInode_of_ne hlk]
    exact h.coh.sync l hl

end Cache
end Inv
/-! ### A file system with one open file -/

theorem geometry_mkfs : Geometry Mkfs.sb where
  toGroupGeom := Mkfs.groupGeom_sb
  two_le := by decide
  ninodes_le := by decide
  ninodes_le_ushort := by decide
  root_lt := by decide

/-- A disk with the layout of `mkfs` on which inode 2 is `d` and all others are
free, with every group's bitmap `bm`, and inode 2 in the cache with one
reference. -/
def oneFile (bm : Block) (d : Dinode) : State where
  disk b :=
    if b = 1 then Mkfs.sb.toBlock
    else if 32 ≤ b ∧ (b - 32) % 200 = 4 then bm
    else if b = 32 then putDinode Buf.zero 2 d
    else Buf.zero
  sb := Mkfs.sb
  icache k :=
    if k = 0 then
      { toDinode := d, dev := ROOTDEV, inum := 2, ref := 1, locked := false, valid := true }
    else { toDinode := Dinode.zero, dev := 0, inum := 0, ref := 0, locked := false, valid := false }
  devsw _ := ⟨none, none⟩
  logged := []
  console := []

section OneFile

variable {bm : Block} {d : Dinode}

theorem oneFile_bitmap (g : ℕ) : (oneFile bm d).disk (Mkfs.sb.bitmapBlock g) = bm := by
  have hb : Mkfs.sb.bitmapBlock g = 32 + (g * 200 + 4) := by
    change 32 + g * 200 + 4 = _
    omega
  rw [hb, oneFile]
  dsimp only
  rw [if_neg (by omega), if_pos ⟨by omega, by omega⟩]

theorem oneFile_dinode {i : UInt32} (hi : i.toNat < Mkfs.sb.ninodes.toNat) :
    (oneFile bm d).dinode i = if i = 2 then d else Dinode.zero := by
  have hb : (IBLOCK i Mkfs.sb).toNat = 32 + i.toNat / 32 * 200 + i.toNat % 32 / 8 :=
    Mkfs.groupGeom_sb.IBLOCK_toNat (hi.trans_le geometry_mkfs.ninodes_le)
  have h2 : i = 2 ↔ i.toNat = 2 := UInt32.toNat_inj.symm
  rw [dinode, show (oneFile bm d).sb = Mkfs.sb from rfl, hb, oneFile]
  simp only [IPB]
  rw [if_neg (by omega), if_neg (by omega)]
  by_cases h0 : i.toNat < 8
  · rw [if_pos (by omega)]
    by_cases h : i.toNat % 8 = 2
    · rw [h, getDinode_putDinode (by decide), if_pos (h2.2 (by omega))]
    · rw [getDinode_putDinode_of_ne h, getDinode_zero, if_neg (mt h2.1 (by omega))]
  · rw [if_neg (by omega), getDinode_zero, if_neg (mt h2.1 (by omega))]

theorem oneFile_icache : (oneFile bm d).icache 0 =
    { toDinode := d, dev := ROOTDEV, inum := 2, ref := 1, locked := false, valid := true } := by
  rw [oneFile]
  dsimp only
  rw [if_pos rfl]

theorem oneFile_loaded {k : Slot} : (oneFile bm d).Loaded k ↔ k = 0 := by
  unfold State.Loaded oneFile
  dsimp only
  split_ifs with hk <;> simp [hk]

theorem oneFile_ref {k : Slot} : ((oneFile bm d).icache k).ref = if k = 0 then 1 else 0 := by
  unfold oneFile
  dsimp only
  split_ifs <;> rfl

theorem coherent_oneFile (hty : d.type ≠ 0) : Coherent (oneFile bm d) := by
  have hpos : ∀ k, 0 < ((oneFile bm d).icache k).ref → k = 0 := fun k hk => by
    rw [oneFile_ref] at hk
    by_contra hk0
    rw [if_neg hk0] at hk
    exact lt_irrefl 0 hk
  refine ⟨fun k l hk hl _ => (hpos k hk).trans (hpos l hl).symm, fun k => ?_, fun k hk => ?_,
    fun k hk => ?_⟩
  · rw [oneFile_ref]; split_ifs <;> decide
  · rw [hpos k hk]
    exact ⟨rfl, show (2 : UInt32).toNat < Mkfs.sb.ninodes.toNat by decide⟩
  · rw [oneFile_loaded.1 hk]
    change d.type ≠ 0 ∧ ((oneFile bm d).dinode 2).type = d.type ∧
      ∀ j, ((oneFile bm d).dinode 2).addrs j = 0 ∨ ((oneFile bm d).dinode 2).addrs j = d.addrs j
    rw [oneFile_dinode (by decide), if_pos rfl]
    exact ⟨hty, rfl, fun _ => .inr rfl⟩

/-- Inode 2 is the only inode. -/
theorem live_oneFile {i : UInt32} (hi : Live (oneFile bm d).sb (oneFile bm d).cur i) : i = 2 := by
  by_contra h2
  refine hi.2 ?_
  rw [cur_disk hi.1, oneFile_dinode hi.1, if_neg h2]
  · rfl
  · intro k hk
    rw [oneFile_loaded.1 hk]
    exact Ne.symm h2

theorem cur_oneFile (hty : d.type ≠ 0) : (oneFile bm d).cur 2 = d :=
  (coherent_oneFile hty).cur_loaded (oneFile_loaded.2 rfl)

/-- **The invariant is satisfiable**, with any direct blocks in the file. -/
theorem inv_oneFile (hbm : ∀ k ≤ 4, bm.bit k = true) (hty : d.type ≠ 0)
    (hind : d.addrs (Fin.last NDIRECT) = 0)
    (hdata : ∀ j, d.addrs j ≠ 0 →
      IsData Mkfs.sb (d.addrs j).toNat ∧ bm.bit (((d.addrs j).toNat - 32) % 200) = true)
    (hinj : ∀ i j, d.addrs i ≠ 0 → d.addrs i = d.addrs j → i = j) : Inv (oneFile bm d) := by
  have hdirect : ∀ k, holds (oneFile bm d).disk d k ≠ 0 →
      ∃ j : Fin (NDIRECT + 1), k = j ∧ holds (oneFile bm d).disk d k = d.addrs j := fun k h0 => by
    by_cases hk : k < 13
    · exact ⟨⟨k, hk⟩, rfl, by rw [holds, dif_pos hk]⟩
    · exact absurd (by rw [holds, dif_neg hk, if_pos hind]) h0
  refine ⟨⟨geometry_mkfs, Superblock.ofBlock_toBlock _, rfl, fun g _ k hk => ?_⟩,
    coherent_oneFile hty, ⟨fun i hi k _ h0 => ?_, fun i j hi hj k _ l _ h0 he => ?_⟩⟩
  · rw [show (oneFile bm d).sb = Mkfs.sb from rfl, oneFile_bitmap]
    exact hbm k (hk.trans (show Mkfs.sb.inodeBlocks ≤ 4 by decide))
  · rw [live_oneFile hi, cur_oneFile hty] at h0 ⊢
    obtain ⟨j, -, he⟩ := hdirect k h0
    rw [he] at h0 ⊢
    refine ⟨(hdata j h0).1, ?_⟩
    rw [State.Used, show (oneFile bm d).sb = Mkfs.sb from rfl, usedBit, oneFile_bitmap]
    exact (hdata j h0).2
  · have hi2 := live_oneFile hi
    have hj2 := live_oneFile hj
    subst hi2 hj2
    rw [cur_oneFile hty] at h0 he
    obtain ⟨m, rfl, hm⟩ := hdirect k h0
    obtain ⟨n, rfl, hn⟩ := hdirect l (he ▸ h0)
    rw [hm] at h0 he
    rw [hn] at he
    exact ⟨rfl, congrArg Fin.val (hinj m n h0 he)⟩

end OneFile

end Xv6.Fs
