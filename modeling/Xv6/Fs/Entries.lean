/-
# The entries of the inode cache

`ilock` and `iunlock` of `fs.c`.  `ilock` reads the inode unless it is in memory
already; both ways the entry then holds the current inode (`State.lockIn`).
Only the bookkeeping of one entry changes: neither function changes the
current inodes or the disk.
-/

import Xv6.Fs.Invariant

namespace Xv6.Fs

open Lib State

/-- Entry `k` after `ilock`. -/
def State.lockIn (s : State) (k : Slot) : State :=
  s.setInode k fun ip => { ip with toDinode := s.cur ip.inum, locked := true, valid := true }

/-- Entry `k` after `iunlock`. -/
def State.unlock (s : State) (k : Slot) : State :=
  s.setInode k fun ip => { ip with locked := false }

section Lock

variable {s : State} {k : Slot} {E : Fail → Prop} {Q : PUnit → State → Prop}

@[simp] theorem wp_setInode {f : Inode → Inode} :
    wp (setInode k f) E Q s ↔ Q ⟨⟩ (s.setInode k f) := wp_modify

/-- An entry that is locked when it has been read already. -/
theorem lockIn_of_loaded (h : Inv s) (hk : s.Loaded k) :
    s.lockIn k = s.setInode k fun ip => { ip with locked := true } := by
  have hcur := h.coh.cur_loaded hk
  rw [State.lockIn, State.setInode, State.setInode, hcur]
  congr 2
  rw [← hk.2]

theorem lockIn_icache (h : Inv s) (hk : s.Loaded k) :
    (s.lockIn k).icache k = { s.icache k with locked := true } := by
  rw [lockIn_of_loaded h hk, setInode_self]

theorem lockIn_toDinode (h : Inv s) (hk : s.Loaded k) :
    ((s.lockIn k).icache k).toDinode = (s.icache k).toDinode := by rw [lockIn_icache h hk]

/-- An entry that has not been read holds the inode on the disk. -/
theorem cur_of_not_valid (h : Inv s) (href : 0 < (s.icache k).ref)
    (hv : (s.icache k).valid = false) :
    s.cur (s.icache k).inum = s.dinode (s.icache k).inum := by
  refine cur_disk (h.coh.range k href).2 fun l hl he => ?_
  rw [h.coh.uniq l k hl.1 href he, State.Loaded, hv] at hl
  exact Bool.noConfusion hl.2

/-- **`ilock` keeps the invariant** and the current inodes. -/
theorem Inv.lockIn (h : Inv s) (hlive : Live s.sb s.cur (s.icache k).inum)
    (href : 0 < (s.icache k).ref) :
    Inv (s.lockIn k) ∧ (s.lockIn k).cur = s.cur ∧ (s.lockIn k).Loaded k := by
  have hload : (s.lockIn k).Loaded k := by
    rw [State.Loaded, State.lockIn, setInode_self]
    exact ⟨href, rfl⟩
  cases hv : (s.icache k).valid with
  | true =>
    rw [lockIn_of_loaded h ⟨href, hv⟩] at hload ⊢
    obtain ⟨hinv, hcur⟩ := h.setBook (k := k) (f := fun ip => { ip with locked := true })
      rfl rfl rfl rfl (h.coh.nonneg k) Iff.rfl
    exact ⟨hinv, hcur, hload⟩
  | false =>
    have hd := cur_of_not_valid h href hv
    obtain ⟨hinv, hcur⟩ := h.setBook (k := k) (f := fun ip => { ip with locked := true })
      rfl rfl rfl rfl (h.coh.nonneg k) Iff.rfl
    obtain ⟨hinv', hcur'⟩ := hinv.load (k := k)
      (f := fun ip => { ip with toDinode := s.cur ip.inum, valid := true })
      (by rw [setInode_self]; exact href) (by rw [setInode_self]; exact hv)
      (by rw [setInode_self, setInode_dinode, ← hd]; exact hlive.2)
      (by rw [setInode_self, setInode_dinode, ← hd])
    rw [setInode_setInode] at hinv' hcur'
    exact ⟨hinv', hcur'.trans hcur, hload⟩

theorem wp_ilock (h : Inv s) (href : (s.icache k).ref < 1 → E (.panic "ilock"))
    (hlocked : (s.icache k).locked = true → E .sleep)
    (htype : (s.cur (s.icache k).inum).type = 0 → E (.panic "ilock: no type"))
    (hok : 0 < (s.icache k).ref → (s.icache k).locked = false →
      Live s.sb s.cur (s.icache k).inum → Q ⟨⟩ (s.lockIn k)) : wp (ilock k) E Q s := by
  unfold ilock acquiresleep getInode
  simp only [wp_bind, wp_get, wp_pure, wp_ite, wp_setInode, wp_panic, wp_sleep, setInode_self,
    setInode_dinode]
  refine ⟨href, fun hr => ⟨hlocked, fun hl => ?_⟩⟩
  have hpos : 0 < (s.icache k).ref := by omega
  have hlock : (s.icache k).locked = false := by simpa using hl
  have hin := (h.coh.range k hpos).2
  refine ⟨fun hv => ?_, fun hv => ?_⟩
  · have hd := cur_of_not_valid h hpos (by simpa using hv)
    rw [← hd]
    refine ⟨htype, fun hty => ?_⟩
    rw [setInode_setInode]
    exact hok hpos hlock ⟨hin, hty⟩
  · have hk : s.Loaded k := ⟨hpos, by simpa using hv⟩
    have hdone := hok hpos hlock (h.live hk)
    rwa [lockIn_of_loaded h hk] at hdone

theorem wp_iunlock (hE : (s.icache k).locked = false ∨ (s.icache k).ref < 1 → E (.panic "iunlock"))
    (hok : (s.icache k).locked = true → 0 < (s.icache k).ref → Q ⟨⟩ (s.unlock k)) :
    wp (iunlock k) E Q s := by
  unfold iunlock releasesleep getInode
  simp only [wp_bind, wp_get, wp_pure, wp_ite, wp_panic, wp_setInode, Bool.not_eq_true',
    not_or, Bool.not_eq_false, not_lt]
  exact ⟨hE, fun hc => hok hc.1 hc.2⟩

/-- `ilock` of an inode that is referenced, unlocked and allocated. -/
theorem wp_ilock_free (h : Inv s) (href : 0 < (s.icache k).ref) (hl : (s.icache k).locked = false)
    (hlive : Live s.sb s.cur (s.icache k).inum) (hQ : Q ⟨⟩ (s.lockIn k)) : wp (ilock k) E Q s :=
  wp_ilock h (fun hr => absurd href (by omega)) (fun hc => by simp [hl] at hc)
    (fun hc => absurd hc hlive.2) fun _ _ _ => hQ

/-- `iunlock` of an inode that is locked. -/
theorem wp_iunlock_locked (href : 0 < (s.icache k).ref) (hl : (s.icache k).locked = true)
    (hQ : Q ⟨⟩ (s.unlock k)) : wp (iunlock k) E Q s :=
  wp_iunlock (fun hc => absurd href (by rw [hl] at hc; simp at hc; omega)) fun _ _ => hQ

/-- The state in which entry `k` has been read. -/
def State.ready (s : State) (k : Slot) : State := (s.lockIn k).unlock k

theorem Inv.ready (h : Inv s) (hlive : Live s.sb s.cur (s.icache k).inum)
    (href : 0 < (s.icache k).ref) :
    Inv (s.ready k) ∧ (s.ready k).cur = s.cur ∧ (s.ready k).Loaded k ∧
      (s.ready k).icache k = { s.icache k with
        toDinode := s.cur (s.icache k).inum, locked := false, valid := true } := by
  obtain ⟨hinv, hcur, hload⟩ := h.lockIn hlive href
  obtain ⟨hinv', hcur'⟩ := hinv.setBook (k := k) (f := fun ip => { ip with locked := false })
    rfl rfl rfl rfl (hinv.coh.nonneg k) Iff.rfl
  have hself : (s.ready k).icache k = { s.icache k with
      toDinode := s.cur (s.icache k).inum, locked := false, valid := true } := by
    rw [State.ready, State.unlock, setInode_self, State.lockIn, setInode_self]
  exact ⟨hinv', hcur'.trans hcur, ⟨hself ▸ href, by rw [hself]⟩, hself⟩

/-- `ilock` does the same whether or not the inode has been read. -/
theorem ilock_ready (h : Inv s) (href : 0 < (s.icache k).ref) (hl : (s.icache k).locked = false)
    (hlive : Live s.sb s.cur (s.icache k).inum) : ilock k s = ilock k (s.ready k) := by
  obtain ⟨hinv, hcur, hload, hself⟩ := h.ready hlive href
  obtain ⟨_, _, hok, rfl⟩ := exists_ok_of_wp
    (wp_ilock_free (Q := fun _ s' => s' = s.lockIn k) h href hl hlive rfl)
  obtain ⟨_, _, hok', rfl⟩ := exists_ok_of_wp
    (wp_ilock_free (Q := fun _ s' => s' = (s.ready k).lockIn k) hinv hload.1 (by rw [hself])
      (by rw [hcur, hself]; exact hlive) rfl)
  rw [hok, hok', lockIn_of_loaded hinv hload, ready, unlock, setInode_setInode,
    lockIn, setInode_setInode]

end Lock
end Xv6.Fs
