/-
# What `namei` and `nameiparent` return

Both walk through the directories from where the path starts, and name resolution is what
they compute: `namei` the inode that the segments of the path lead to (`State.walk`),
`nameiparent` the directory that all but the last lead to (`State.walkParent`), with the
last segment.  So `nameiparent` followed by `dirlookup` finds what `namei` finds
(`path_walk`).

A walk needs two entries of the inode cache, one for the directory it is in and one for the
next inode.  `namei_crowded` shows it panic when the cache is full.
-/

import Xv6.Mkfs.Boot

namespace Xv6.Fs

open Lib Option

/-- Why a walk may not return: it waits for the lock of an inode, or fewer than two entries of the
inode cache are free. -/
def Stuck (s : State) (e : Fail) : Prop :=
  (e = .sleep ∧ ∃ k, s.locks k = true) ∨ (e = .panic "iget: no inodes" ∧ ¬ Room s.refs)

section Walk

variable {X : UInt32 → Prop} {s s₁ : State} {cwd dp : Slot} {i d : UInt32} {path : List UInt8}
  {name : Buf DIRSIZ} {ns : List (Buf DIRSIZ)}

/-- The last name is looked up in the parent directory. -/
theorem walk_of_walkParent (h : s.walkParent i ns = some (d, name)) :
    s.walk i ns = s.lookup d name ∧ (s.cur d).type = T_DIR := by
  unfold State.walkParent at h
  obtain ⟨last, hlast, h'⟩ := bind_eq_some_iff.1 h
  obtain ⟨dir, hdir, hres⟩ := bind_eq_some_iff.1 h'
  obtain ⟨ns', rfl⟩ := List.getLast?_eq_some_iff.1 hlast
  rw [List.dropLast_concat] at hdir
  split_ifs at hres with hty
  obtain ⟨rfl, rfl⟩ := Prod.mk.inj (some.inj hres)
  rw [walk_append, hdir, bind_some, walk_cons]
  refine ⟨?_, hty⟩
  cases s.lookup dir last <;> rfl

/-- `dirlookup` in the directory that `nameiparent` has returned. -/
theorem Walked.wp_dirlookup {H : Slot → ℕ} (h : Walked X H s.refs true i ns s (some (dp, name)) s₁)
    (ht : IsTree s) :
    wp (do ilock dp; dirlookup dp name) (Stuck s) (fun r s2 => SameFiles s s2 ∧
      r.map (fun p => (s2.icache p.1).inum) = s.walk i ns) s₁ := by
  obtain ⟨hwalk, hty⟩ := walk_of_walkParent h.found.symm
  have hlive1 : Live s₁.sb s₁.cur (s₁.icache dp).inum := h.files.live.2 (.of_dir hty)
  rw [wp_bind]
  refine wp_ilock_locked h.evolves.wf h.refs (fun hl => .inl ⟨rfl, dp, by rw [← h.locks]; exact hl⟩)
    (fun h0 => absurd h0 hlive1.2) fun _ hlk hev hs => ?_
  have hinum := hev.inum dp (by rw [addRef_self]; omega)
  have hc : (s₁.lockIn dp).refs = s.refs + oneRef dp := (refs_setInode_same rfl).trans h.count
  have hw2 := hlk.evolves.wf
  have hload := hlk.loaded
  generalize s₁.lockIn dp = s2 at *
  have hfiles := h.files.trans hs.sameFiles
  have hcur := hw2.inv.coh.cur_loaded hload
  rw [hinum] at hcur
  have hinode : (s2.icache dp).toDinode = { s.cur (s₁.icache dp).inum with
      addrs := (s2.icache dp).addrs } := by
    rw [← hcur, hfiles.inode]
  have hty2 : (s2.icache dp).type = T_DIR := by rw [hinode]; exact hty
  have hlook : s2.lookup (s2.icache dp).inum name = s.walk i ns := by
    rw [hfiles.lookup, hinum, hwalk]
  refine Fs.wp_dirlookup hw2.inv hload (fun hc => absurd hty2 hc) (fun h16 => ?_)
    (fun s3 _ _ hno hl => ?_) fun j s3 _ hfit his hno hl => ?_
  · refine absurd ?_ h16
    rw [hinode]
    exact ht.whole _ hty
  · rw [lookup_loaded_none hw2.inv hload hno] at hlook
    exact ⟨hfiles.trans (hl.sameFiles hw2.inv hload), hlook⟩
  · rw [lookup_loaded hw2.inv hload hty2 hfit his hno] at hlook
    have hw3 := (hl.evolves (H := H) hw2 hload).wf
    refine wp_iget hw3.inv (fun _ hfull => .inr ⟨rfl, fun hroom => ?_⟩) fun ip s4 hg => ?_
    · obtain ⟨l, hl0⟩ := hroom.exists_free dp
      rw [← hc, ← hl.1.refs_eq] at hl0
      exact hfull l hl0
    · have hi : (direntAt (s2.data dp) j).inum.toUInt32.toNat < s3.sb.ninodes.toNat := by
        rw [hl.1.sb]
        exact hw2.entry_lt hload hty2 hfit
      refine ⟨(hfiles.trans (hl.sameFiles hw2.inv hload)).trans
        (hg.same hw3.inv hi).2.sameFiles, ?_⟩
      rw [map_some, hg.inum, hlook]

end Walk
end Xv6.Fs
