/-
# A directory is a finite map

The entries of a directory as slots of a table (`Lib.Slots`): the key of a name is the
string in its `DIRSIZ` bytes (`key`), and the directory binds a key to an inode number
(`State.binding`).  `dirlookup` searches the table, `dirlink` fills the first free slot or
extends the table by one, and writing zeros over an entry, as `sys_unlink` does, frees its
slot.

`directory_map` says so after any sequence of these operations, in which the keys in use
stay distinct.  Each has its limits: `dirlookup` panics if the inode cache has no entry for
the inode it has found (`Crowded`, and `dirlookup_crowded` shows such a state), `dirlink`
waits for the lock of the inode in its way, and no block may be left for a new entry.
-/

import Xv6.Fs.ByteArray
import Xv6.Fs.Dir
import Xv6.Lib.Run
import Xv6.Lib.Slots

namespace Xv6.Fs

open Function Lib Option State UInt32

/-- What an entry binds. -/
def Dirent.slot (de : Dirent) : Option (List UInt8 × UInt32) :=
  if de.inum = 0 then none else some (key de.name, de.inum.toUInt32)

/-- What entry `j` of directory `k` binds. -/
def State.slot (s : State) (k : Slot) (j : ℕ) : Option (List UInt8 × UInt32) :=
  (direntAt (s.data k) j).slot

/-- The number of entries of directory `k`. -/
def State.entries (s : State) (k : Slot) : ℕ := (s.icache k).size.toNat / 16

/-- The inode number that directory `k` binds to a key, and the place of the entry. -/
def State.binding (s : State) (k : Slot) (x : List UInt8) : Option (UInt32 × ℕ) :=
  Slots.find (s.slot k) (s.entries k) x

/-- Entry `k` of the inode cache holds a directory in which no key is bound twice. -/
structure IsDir (k : Slot) (s : State) : Prop where
  inv : Inv s
  loaded : s.Loaded k
  type : (s.icache k).type = T_DIR
  whole : 16 ∣ (s.icache k).size.toNat
  distinct : Slots.Distinct (s.slot k) (s.entries k)

/-- The inode cache has no entry for inode `i`, and none that is free. -/
def Crowded (s : State) (i : UInt32) : Prop :=
  (∀ l, 0 < (s.icache l).ref → (s.icache l).inum ≠ i) ∧ ∀ l, (s.icache l).ref ≠ 0

/-- An operation on a directory. -/
inductive DirOp where
  | lookup (name : Buf DIRSIZ)
  | link (name : Buf DIRSIZ) (inum : UInt32)
  | clear (name : Buf DIRSIZ)

/-- The operations on directory `k`.  The reference that `dirlookup` returns is dropped. -/
def DirOp.run (k : Slot) : DirOp → Prog State Unit
  | lookup name => do
      match ← dirlookup k name with
      | none => return
      | some (ip, _) => iput ip
  | link name inum => do
      let _ ← dirlink k name inum
  | clear name => do
      match ← dirlookup k name with
      | none => return
      | some (ip, off) => do
          iput ip
          if (← writei k Dirent.zero.bytes (ofNat off) 16) ≠ 16 then
            Prog.panic "unlink: writei"

/-- A completed operation. -/
def dirStep (k : Slot) (s : State) (op : DirOp) : Option (Except Fail State) :=
  some ((op.run k s).map Prod.snd)

section DirMap

variable {k : Slot} {s s' s₁ : State} {i : UInt32} {name : Buf DIRSIZ} {j m : ℕ}

/-! ### Entries and slots -/

theorem Dirent.slot_eq_some {de : Dirent} {x : List UInt8} :
    de.slot = some (x, i) ↔ de.inum ≠ 0 ∧ key de.name = x ∧ de.inum.toUInt32 = i := by
  unfold Dirent.slot
  split_ifs with h0
  · exact iff_of_false (by simp) fun h => h.1 h0
  · rw [some.injEq, Prod.mk.injEq]
    exact ⟨fun h => ⟨h0, h⟩, fun h => h.2⟩

/-- An entry has a name if its slot holds the key. -/
theorem is_iff : (direntAt (s.data k) j).Is name ↔
    s.slot k j = some (key name, (direntAt (s.data k) j).inum.toUInt32) := by
  rw [slot, Dirent.slot_eq_some, Dirent.Is, namecmp_eq_zero]
  exact ⟨fun h => ⟨h.1, h.2.symm, rfl⟩, fun h => ⟨h.1, h.2.1.symm⟩⟩

theorem lt_entries (h16 : 16 ∣ (s.icache k).size.toNat) :
    j < s.entries k ↔ 16 * j < (s.icache k).size.toNat := by
  unfold entries
  omega

theorem lt_entries' : j < s.entries k ↔ 16 * j + 16 ≤ (s.icache k).size.toNat := by
  unfold entries
  omega

/-- The slots depend on the bytes and the size only. -/
theorem slot_congr (hdata : s'.data k = s.data k) : s'.slot k = s.slot k := by
  funext j
  rw [slot, hdata, slot]

theorem entries_congr (hsize : (s'.icache k).size = (s.icache k).size) :
    s'.entries k = s.entries k := by rw [entries, entries, hsize]

theorem binding_congr (hsize : (s'.icache k).size = (s.icache k).size)
    (hdata : s'.data k = s.data k) : s'.binding k = s.binding k := by
  funext x
  rw [binding, binding, slot_congr hdata, entries_congr hsize]

theorem IsDir.congr (h : IsDir k s) (hinv : Inv s') (hk : s'.Loaded k)
    (htype : (s'.icache k).type = (s.icache k).type) (hsize : (s'.icache k).size =
      (s.icache k).size)
    (hdata : s'.data k = s.data k) : IsDir k s' where
  inv := hinv
  loaded := hk
  type := htype.trans h.type
  whole := by rw [hsize]; exact h.whole
  distinct := by rw [slot_congr hdata, entries_congr hsize]; exact h.distinct

/-- The binding of the first entry with the name. -/
theorem IsDir.binding_of_is (h : IsDir k s) (hj : 16 * j + 16 ≤ (s.icache k).size.toNat)
    (his : (direntAt (s.data k) j).Is name) :
    s.binding k (key name) = some ((direntAt (s.data k) j).inum.toUInt32, j) :=
  h.distinct.find_eq_some.2 ⟨lt_entries'.2 hj, is_iff.1 his⟩

theorem IsDir.binding_of_not (h : IsDir k s)
    (hno : ∀ j, 16 * j < (s.icache k).size.toNat → ¬ (direntAt (s.data k) j).Is name) :
    s.binding k (key name) = none := by
  refine Slots.find_eq_none.2 fun j hj i hslot => hno j ((lt_entries h.whole).1 hj) ?_
  rw [is_iff, hslot, (Dirent.slot_eq_some.1 hslot).2.2]

/-! ### Reading -/

theorem Looked.isDir (hl : Looked k s s') (h : IsDir k s) : IsDir k s' :=
  h.congr hl.1.inv (hl.1.loaded h.loaded) hl.1.type_eq hl.1.size hl.1.data

theorem Looked.binding (hl : Looked k s s') : s'.binding k = s.binding k :=
  binding_congr hl.1.size hl.1.data

theorem Looked.crowded (hl : Looked k s s') : Crowded s' i ↔ Crowded s i := by
  have hentry : ∀ l, (s'.icache l).ref = (s.icache l).ref ∧
      (s'.icache l).inum = (s.icache l).inum := by
    intro l
    by_cases hlk : l = k
    · rw [hlk, hl.1.entry]
      exact ⟨rfl, rfl⟩
    · rw [hl.1.others l hlk]
      exact ⟨rfl, rfl⟩
  simp only [Crowded, hentry]

/-- **`dirlookup` searches the table.** -/
theorem IsDir.wp_dirlookup (h : IsDir k s) (name : Buf DIRSIZ) :
    wp (dirlookup k name)
      (fun e => e = .panic "iget: no inodes" ∧
        ∃ i j, s.binding k (key name) = some (i, j) ∧ Crowded s i)
      (fun r s' => (s.binding k (key name) = none ∧ r = none ∧ Looked k s s') ∨
        ∃ i j ip s₁, s.binding k (key name) = some (i, j) ∧ r = some (ip, 16 * j) ∧
          Looked k s s₁ ∧ Got i s₁ ip s') s := by
  refine Fs.wp_dirlookup h.inv h.loaded (fun hc => absurd h.type hc) (fun hc => absurd h.whole hc)
    (fun s' _ _ hno hl => ?_) fun j s₁ _ hfit his _ hl => ?_
  · exact .inl ⟨h.binding_of_not hno, rfl, hl⟩
  · have hbound := h.binding_of_is hfit his
    refine wp_iget hl.1.inv (fun hnew hfull => ?_) fun ip s' hg => ?_
    · exact ⟨rfl, _, _, hbound, hl.crowded.1 ⟨hnew, hfull⟩⟩
    · exact .inr ⟨_, j, ip, s₁, hbound, rfl, hl, hg⟩

/-- An inode has been looked at and let go: at most a free entry of the cache has changed. -/
def Peeked (s s' : State) : Prop :=
  s' = s ∨ ∃ e f, (s.icache e).ref = 0 ∧ (f (s.icache e)).ref = 0 ∧ s' = s.setInode e f

/-- `iget` followed by `iput`. -/
theorem Got.wp_iput (hg : Got i s k s') {E : Fail → Prop} {Q : PUnit → State → Prop}
    (hsleep : E .sleep) (hQ : ∀ s'', Peeked s s'' → Q ⟨⟩ s'') : wp (iput k) E Q s' := by
  cases hg with
  | hit href hi =>
    refine wp_iput_drop ?_ (fun _ => hsleep) fun _ => hQ _ (.inl ?_)
    · rw [setInode_self]
      dsimp only
      omega
    · rw [setInode_setInode]
      simp only [State.setInode, add_sub_cancel_right]
      rw [update_eq_self]
  | miss hnew hfree =>
    refine wp_iput_drop ?_ (fun _ => hsleep) fun _ => hQ _ (.inr ⟨k, fun ip =>
      { ip with dev := ROOTDEV, inum := i, ref := 0, valid := false }, hfree, rfl, ?_⟩)
    · rw [setInode_self]
      simp
    · rw [setInode_setInode]
      rfl

variable (hp : Peeked s s')

include hp

theorem Peeked.icache {l : Slot} (hl : 0 < (s.icache l).ref) : s'.icache l = s.icache l := by
  rcases hp with rfl | ⟨e, f, hfree, -, rfl⟩
  · rfl
  · refine setInode_of_ne ?_
    rintro rfl
    exact hl.ne' hfree

theorem Peeked.disk : s'.disk = s.disk := by
  rcases hp with rfl | ⟨e, f, -, -, rfl⟩ <;> rfl

theorem Peeked.data (hk : 0 < (s.icache k).ref) : s'.data k = s.data k := by
  funext x
  rw [State.data, hp.icache hk, hp.disk, State.data]

theorem Peeked.isDir (h : IsDir k s) : IsDir k s' := by
  have hk := hp.icache h.loaded.1
  have hinv : Inv s' := by
    rcases hp with rfl | ⟨e, f, hfree, hf, rfl⟩
    · exact h.inv
    · exact (h.inv.forget hfree hf).1
  refine h.congr hinv ?_ (by rw [hk]) (by rw [hk]) (hp.data h.loaded.1)
  rw [State.Loaded, hk]
  exact h.loaded

theorem Peeked.binding (h : IsDir k s) : s'.binding k = s.binding k :=
  binding_congr (by rw [hp.icache h.loaded.1]) (hp.data h.loaded.1)

omit hp

/-! ### Writing -/

variable {de : Dirent}

/-- The slots after an entry has been written. -/
theorem Wrote.slot (hw : Wrote k de.bytes (16 * j) 16 s 16 s') :
    s'.slot k = update (s.slot k) j de.slot := by
  funext i
  rw [State.slot, hw.data, direntAt_overlaid, update_apply]
  split_ifs
  · rfl
  · rfl

theorem Wrote.entries (hw : Wrote k de.bytes (16 * j) 16 s 16 s')
    (h16 : 16 ∣ (s.icache k).size.toNat) : s'.entries k = max (s.entries k) (j + 1) := by
  rw [State.entries, State.entries, hw.size]
  omega

/-- An entry that has not been written. -/
theorem Wrote.same (hw : Wrote k de.bytes (16 * j) 16 s 0 s')
    (hj : 16 * j ≤ (s.icache k).size.toNat) :
    (s'.icache k).size = (s.icache k).size ∧ s'.data k = s.data k := by
  have hsize := hw.size
  rw [Nat.add_zero, max_eq_left hj] at hsize
  have hdata := hw.data
  rw [overlaid_zero] at hdata
  exact ⟨UInt32.toNat_inj.1 hsize, hdata⟩

theorem Wrote.isDir (hw : Wrote k de.bytes (16 * j) 16 s 16 s') (h : IsDir k s)
    (hdistinct : Slots.Distinct (update (s.slot k) j de.slot)
      (max (s.entries k) (j + 1))) : IsDir k s' where
  inv := hw.inv
  loaded := hw.loaded h.loaded
  type := hw.type_eq.trans h.type
  whole := by
    have := h.whole
    rw [hw.size]
    omega
  distinct := by
    rw [hw.slot, hw.entries h.whole]
    exact hdistinct

/-- `dirlink` uses a free slot, or the one past the last. -/
theorem FirstEmpty.free (hj : FirstEmpty (s.data k) (s.icache k).size.toNat j)
    (h16 : 16 ∣ (s.icache k).size.toNat) :
    j ≤ s.entries k ∧ (j < s.entries k → s.slot k j = none) := by
  refine ⟨?_, fun hlt => ?_⟩
  · have := hj.le
    unfold entries
    omega
  · rw [slot, Dirent.slot, if_pos (hj.empty ((lt_entries h16).1 hlt))]

/-- **`dirlink`** finds the key bound, or writes the entry into the first free slot. -/
theorem IsDir.wp_dirlink (h : IsDir k s) (name : Buf DIRSIZ) (inum : UInt32) :
    wp (dirlink k name inum)
      (fun e => (e = .sleep ∧ ∃ b, s.binding k (key name) = some b) ∨
        (e = .panic "iget: no inodes" ∧ ∃ i j, s.binding k (key name) = some (i, j) ∧ Crowded s i) ∨
        e = .panic "dirlink" ∧ s.binding k (key name) = none ∧
          ∃ j, FirstEmpty (s.data k) (s.icache k).size.toNat j ∧ MAXFILE * BSIZE < 16 * j + 16)
      (fun r s' =>
        (∃ b s₁, s.binding k (key name) = some b ∧ r = -1 ∧ Looked k s s₁ ∧ Peeked s₁ s') ∨
        s.binding k (key name) = none ∧ r = 0 ∧ ∃ j s₁ m,
          FirstEmpty (s.data k) (s.icache k).size.toNat j ∧ 16 * j + 16 ≤ MAXFILE * BSIZE ∧
          Looked k s s₁ ∧
          Wrote k (Dirent.bytes ⟨inum.toUInt16, strncpy name.byte DIRSIZ⟩) (16 * j) 16 s₁ m s')
      s := by
  refine Fs.wp_dirlink h.inv h.loaded (fun hc => absurd h.type hc) (fun hc => absurd h.whole hc)
    (fun j hno hj hbig => ?_) (fun j s₁ _ hfit his _ hl => ?_)
    fun j s₁ m s' _ hno hj _ hl hmax hw => ?_
  · exact .inr (.inr ⟨rfl, h.binding_of_not hno, j, hj, hbig⟩)
  · have hbound := h.binding_of_is hfit his
    refine wp_iget hl.1.inv (fun hnew hfull => ?_) fun ip s2 hg => ?_
    · exact .inr (.inl ⟨rfl, _, _, hbound, hl.crowded.1 ⟨hnew, hfull⟩⟩)
    · exact hg.wp_iput (.inl ⟨rfl, _, hbound⟩) fun s3 hp => .inl ⟨_, s₁, hbound, rfl, hl, hp⟩
  · exact .inr ⟨h.binding_of_not hno, rfl, j, s₁, m, hj, hmax, hl, hw⟩

/-- The entry that `dirlink` has written is bound, unless no block could be had for it. -/
theorem Wrote.linked {inum : UInt32} (h : IsDir k s) (hnone : s.binding k (key name) = none)
    (hj : FirstEmpty (s.data k) (s.icache k).size.toNat j) (hmax : 16 * j + 16 ≤ MAXFILE * BSIZE)
    (hw : Wrote k (Dirent.bytes ⟨inum.toUInt16, strncpy name.byte DIRSIZ⟩) (16 * j) 16 s m s') :
    IsDir k s' ∧ ((s'.free = 0 ∧ s'.addr k (16 * j / BSIZE) = 0) ∨
      (s'.icache k).size.toNat = max (s.icache k).size.toNat (16 * j + 16) ∧
      (0 < inum.toNat → inum.toNat < 65536 →
        s'.binding k = update (s.binding k) (key name) (some (inum, j)))) := by
  rcases hw.entry_cases hmax with rfl | rfl
  · obtain ⟨hsize, hdata⟩ := hw.same hj.le
    obtain ⟨-, hfree, -, haddr⟩ := hw.short (by omega)
    exact ⟨h.congr hw.inv (hw.loaded h.loaded) hw.type_eq hsize hdata, .inl ⟨hfree, haddr⟩⟩
  · obtain ⟨hle, hempty⟩ := hj.free h.whole
    have hnew := Slots.find_eq_none.1 hnone
    refine ⟨hw.isDir h ?_, .inr ⟨hw.size, fun hpos hlt => ?_⟩⟩
    · unfold Dirent.slot
      split_ifs
      · exact h.distinct.erase hle
      · dsimp only
        rw [key_strncpy]
        exact h.distinct.insert hle hnew
    · have hslot : Dirent.slot ⟨inum.toUInt16, strncpy name.byte DIRSIZ⟩ =
          some (key name, inum) := by
        have hmod : inum.toUInt16.toNat = inum.toNat := by
          rw [toNat_toUInt16]
          exact Nat.mod_eq_of_lt hlt
        rw [Dirent.slot_eq_some]
        refine ⟨fun h0 => ?_, key_strncpy, UInt32.toNat_inj.1 ?_⟩
        · dsimp only at h0
          rw [h0] at hmod
          exact hpos.ne hmod
        · rw [UInt16.toNat_toUInt32, hmod]
      funext x
      rw [binding, hw.slot, hw.entries h.whole, hslot, h.distinct.find_insert hle hempty hnone]
      rfl

/-- **Writing zeros over the entry of a key** removes its binding. -/
theorem IsDir.wp_clear (h : IsDir k s) {x : List UInt8} (hx : s.binding k x = some (i, j)) :
    wp (writei k Dirent.zero.bytes (ofNat (16 * j)) 16) (fun _ => False)
      (fun r s' => r = 16 ∧ IsDir k s' ∧
        s'.binding k = update (s.binding k) x none) s := by
  obtain ⟨hlt, hslot⟩ := Slots.mem_of_find hx
  have hfit := lt_entries'.1 hlt
  have hsize := (s.icache k).size.toNat_lt
  have hoff : (ofNat (16 * j)).toNat = 16 * j := by
    rw [toNat_ofNat']
    omega
  -- an entry that is not zero lies in a block
  have haddr : s.addr k (16 * j / BSIZE) ≠ 0 := by
    intro h0
    have hzero : direntAt (s.data k) j = direntAt (fun _ => 0) j := by
      refine direntAt_congr fun r hr => ?_
      have hpage : (16 * j + r) / BSIZE = 16 * j / BSIZE := by
        simp only [BSIZE]
        omega
      rw [data, content, hpage]
      exact if_pos h0
    refine (Dirent.slot_eq_some.1 hslot).1 ?_
    rw [hzero, direntAt_zero]
  have hmax : 16 * j + 16 ≤ MAXFILE * BSIZE := by
    by_contra hbig
    refine haddr (blockAddr_of_ge ?_)
    simp only [MAXFILE, BSIZE] at *
    omega
  refine wp_writei h.inv h.loaded (by rw [h.type]; decide) (fun hbad => ?_) fun m s' _ _ hw => ?_
  · rw [hoff, show (16 : UInt32).toNat = 16 from rfl] at hbad
    simp only [MAXFILE, BSIZE] at hmax hbad
    omega
  · rw [hoff, show (16 : UInt32).toNat = 16 from rfl] at hw
    obtain rfl : m = 16 := by
      refine (hw.entry_cases hmax).resolve_left ?_
      rintro rfl
      exact haddr ((hw.keep _ haddr).symm.trans (hw.short (by omega)).2.2.2)
    have hfree : Dirent.zero.slot = none := if_pos rfl
    refine ⟨rfl, hw.isDir h ?_, ?_⟩
    · rw [hfree]
      exact h.distinct.erase hlt.le
    · funext y
      rw [binding, hw.slot, hw.entries h.whole, hfree, max_eq_left hlt, h.distinct.find_erase hx]
      rfl

/-! ### Sequences of operations -/

/-- Every operation keeps the keys distinct. -/
theorem IsDir.step (h : IsDir k s) {op : DirOp} (hstep : dirStep k s op = some (.ok s')) :
    IsDir k s' := by
  have hrun : ∃ u, op.run k s = .ok (u, s') := by
    rw [dirStep, some.injEq] at hstep
    cases hop : op.run k s with
    | error e =>
      rw [hop] at hstep
      cases hstep
    | ok r =>
      rw [hop] at hstep
      exact ⟨r.1, by rw [← Except.ok.inj hstep]⟩
  obtain ⟨u, hrun⟩ := hrun
  have hwp : wp (op.run k) (fun _ => True) (fun _ s' => IsDir k s') s := by
    cases op with
    | lookup name =>
      simp only [DirOp.run, wp_bind]
      refine wp_mono (wp_mono_fail (h.wp_dirlookup name) fun _ _ => trivial) fun r s2 hr => ?_
      rcases hr with ⟨-, rfl, hl⟩ | ⟨i, j, ip, s₁, -, rfl, hl, hg⟩
      · exact wp_pure.2 (hl.isDir h)
      · exact hg.wp_iput trivial fun s3 hp => hp.isDir (hl.isDir h)
    | link name inum =>
      simp only [DirOp.run, wp_bind, wp_pure]
      refine wp_mono (wp_mono_fail (h.wp_dirlink name inum) fun _ _ => trivial) fun r s2 hr => ?_
      rcases hr with ⟨b, s₁, -, -, hl, hp⟩ | ⟨hnone, -, j, s₁, m, hj, hmax, hl, hw⟩
      · exact hp.isDir (hl.isDir h)
      · rw [← hl.binding] at hnone
        rw [← hl.1.data, ← hl.1.size] at hj
        exact (hw.linked (hl.isDir h) hnone hj hmax).1
    | clear name =>
      simp only [DirOp.run, wp_bind]
      refine wp_mono (wp_mono_fail (h.wp_dirlookup name) fun _ _ => trivial) fun r s2 hr => ?_
      rcases hr with ⟨-, rfl, hl⟩ | ⟨i, j, ip, s₁, hbound, rfl, hl, hg⟩
      · exact wp_pure.2 (hl.isDir h)
      · simp only [wp_bind]
        refine hg.wp_iput trivial fun s3 hp => ?_
        have h1 := hl.isDir h
        rw [← hl.binding, ← hp.binding h1] at hbound
        refine wp_mono (wp_mono_fail ((hp.isDir h1).wp_clear hbound) fun _ _ => trivial)
          fun r s4 hr => ?_
        simp only [wp_ite, wp_panic, wp_pure]
        exact ⟨fun _ => trivial, fun _ => hr.2.1⟩
  have hpost := post_of_wp hwp hrun
  exact hpost

/-- The directory is as it was; and if it has all its blocks, so are the disk and the inodes in
use, up to the number of references. -/
structure Kept (k : Slot) (s s' : State) : Prop where
  size : (s'.icache k).size = (s.icache k).size
  data : s'.data k = s.data k
  rest : NoHoles s k → s'.disk = s.disk ∧ s'.logged = s.logged ∧
    ∀ l, 0 < (s.icache l).ref → s'.icache l = { s.icache l with ref := (s'.icache l).ref }

theorem Looked.kept (hl : Looked k s s') : Kept k s s' where
  size := hl.1.size
  data := hl.1.data
  rest hno := by
    rw [hl.2 hno]
    exact ⟨rfl, rfl, fun _ _ => rfl⟩

theorem Got.disk {ip : Slot} (hg : Got i s ip s') : s'.disk = s.disk ∧ s'.logged = s.logged := by
  cases hg <;> exact ⟨rfl, rfl⟩

theorem Kept.got {ip : Slot} (h : Kept k s s₁) (hk : 0 < (s₁.icache k).ref) (hg : Got i s₁ ip s')
    (hsame : NoHoles s k → s₁ = s) : Kept k s s' := by
  have hentry := hg.kept hk
  refine ⟨?_, ?_, fun hno => ?_⟩
  · rw [hentry]
    exact h.size
  · rw [← h.data]
    funext x
    rw [State.data, hentry, hg.disk.1, State.data]
  · rw [hsame hno] at hg
    exact ⟨hg.disk.1, hg.disk.2, fun l hl => hg.kept hl⟩

theorem Peeked.logged (hp : Peeked s s') : s'.logged = s.logged := by
  rcases hp with rfl | ⟨e, f, -, -, rfl⟩ <;> rfl

end DirMap
end Xv6.Fs
