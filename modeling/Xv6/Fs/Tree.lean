/-
# The directory tree

What a directory is for, apart from its blocks: it maps names to inode numbers
(`State.lookup`), and a list of names leads from one inode to another
(`State.walk`).  The files form a tree (`IsTree`) as far as this module goes if
the root and all that the names in use lead to are allocated inodes.

Code that only resolves names leaves every file as it is (`SameFiles`).  The one danger is
that an inode leaves the cache: what memory has and the disk has not is lost then.  An
inode that has been got with `iget` is safe (`Pinned`): either others hold it too, or
what memory has of it was read from the disk.
-/

import Xv6.Fs.Dir

namespace Xv6.Fs

open Function Lib Option State

/-- The first of the entries in `n` bytes `f` with the name. -/
def entryOf (f : ℕ → UInt8) (n : ℕ) (name : Buf DIRSIZ) : Option ℕ :=
  (List.range (n / 16)).find? fun j => (direntAt f j).Is name

/-- The inode number that directory `i` has for the name. -/
def State.lookup (s : State) (i : UInt32) (name : Buf DIRSIZ) : Option UInt32 :=
  if (s.cur i).type = T_DIR then
    (entryOf (content s.disk (s.cur i)) (s.cur i).size.toNat name).map fun j =>
      (direntAt (content s.disk (s.cur i)) j).inum.toUInt32
  else none

/-- The inode number that a list of names leads to. -/
def State.walk (s : State) (i : UInt32) (names : List (Buf DIRSIZ)) : Option UInt32 :=
  names.foldlM s.lookup i

/-- The directory that all names but the last lead to, and the last. -/
def State.walkParent (s : State) (i : UInt32) (names : List (Buf DIRSIZ)) :
    Option (UInt32 × Buf DIRSIZ) := do
  let name ← names.getLast?
  let dir ← s.walk i names.dropLast
  if (s.cur dir).type = T_DIR then some (dir, name) else none

/-- Directories consist of whole entries, and the root and what they name are allocated. -/
structure IsTree (s : State) : Prop where
  whole : ∀ i, (s.cur i).type = T_DIR → 16 ∣ (s.cur i).size.toNat
  root : Live s.sb s.cur ROOTINO
  live : ∀ i name i', s.lookup i name = some i' → Live s.sb s.cur i'

/-- Every file is as it was: its inode up to the block addresses, and its bytes. -/
structure SameFiles (s s' : State) : Prop where
  sb : s'.sb = s.sb
  inode : ∀ i, s'.cur i = { s.cur i with addrs := (s'.cur i).addrs }
  content : ∀ i, Live s.sb s.cur i → ∀ x < (s.cur i).size.toNat,
    content s'.disk (s'.cur i) x = content s.disk (s.cur i) x

/-- With `n` references or fewer, inode `k` has links, and the disk has all its bytes. -/
structure Pinned (n : ℕ) (s : State) (k : Slot) : Prop where
  linked : Live s.sb s.cur (s.icache k).inum → (s.cur (s.icache k).inum).nlink = 0 →
    n < (s.icache k).ref
  settled : s.Loaded k → (s.icache k).ref ≤ n → ∀ x < (s.icache k).size.toNat,
    content s.disk (s.dinode (s.icache k).inum) x = content s.disk (s.icache k).toDinode x

section Tree

variable {X : UInt32 → Prop} {H : Slot → ℕ} {s s' s'' : State} {k : Slot} {i i' : UInt32}
  {name : Buf DIRSIZ} {n : ℕ} {names : List (Buf DIRSIZ)}

theorem find?_range {p : ℕ → Prop} [DecidablePred p] {n j : ℕ} :
    (List.range n).find? (fun j => p j) = some j ↔ j < n ∧ p j ∧ ∀ j' < j, ¬ p j' := by
  rw [List.find?_range_eq_some]
  simp [and_left_comm]

theorem entryOf_eq_some {f : ℕ → UInt8} {n j : ℕ} : entryOf f n name = some j ↔
    16 * j + 16 ≤ n ∧ (direntAt f j).Is name ∧ ∀ j' < j, ¬ (direntAt f j').Is name := by
  rw [entryOf, find?_range]
  have : j < n / 16 ↔ 16 * j + 16 ≤ n := by omega
  rw [this]

theorem lookup_eq_some : s.lookup i name = some i' ↔ (s.cur i).type = T_DIR ∧
    ∃ j, 16 * j + 16 ≤ (s.cur i).size.toNat ∧
      (direntAt (content s.disk (s.cur i)) j).Is name ∧
      (∀ j' < j, ¬ (direntAt (content s.disk (s.cur i)) j').Is name) ∧
      (direntAt (content s.disk (s.cur i)) j).inum.toUInt32 = i' := by
  rw [lookup]
  split_ifs with hty
  · simp only [map_eq_some_iff, entryOf_eq_some, hty, true_and, and_assoc]
  · simp [hty]

theorem walk_cons :
    s.walk i (name :: names) = (s.lookup i name).bind fun i' => s.walk i' names := rfl

theorem walkParent_singleton : s.walkParent i [name] =
    if (s.cur i).type = T_DIR then some (i, name) else none := rfl

theorem walkParent_cons (h : names ≠ []) :
    s.walkParent i (name :: names) = (s.lookup i name).bind fun i' => s.walkParent i' names := by
  obtain ⟨name', names, rfl⟩ := List.exists_cons_of_ne_nil h
  rw [walkParent, List.getLast?_cons_cons, List.dropLast_cons_cons]
  cases hl : s.lookup i name with
  | none => simp [walk_cons, hl]
  | some i' => simp only [walk_cons, hl, bind_some, walkParent]

theorem walk_append {ns ns' : List (Buf DIRSIZ)} :
    s.walk i (ns ++ ns') = (s.walk i ns).bind fun i' => s.walk i' ns' := List.foldlM_append

/-- A directory with the same entries. -/
theorem lookup_congr (hty : (s'.cur i).type = (s.cur i).type)
    (hsize : (s'.cur i).size = (s.cur i).size)
    (hcont : ∀ x < (s.cur i).size.toNat,
      content s'.disk (s'.cur i) x = content s.disk (s.cur i) x) :
    s'.lookup i name = s.lookup i name := by
  have hent : ∀ j, 16 * j + 16 ≤ (s.cur i).size.toNat →
      direntAt (content s'.disk (s'.cur i)) j = direntAt (content s.disk (s.cur i)) j :=
    fun j hj => direntAt_congr fun r hr => hcont _ (by omega)
  refine ext fun i' => ?_
  rw [lookup_eq_some, lookup_eq_some, hty, hsize]
  refine and_congr Iff.rfl (exists_congr fun j => and_congr_right fun hj => ?_)
  rw [hent j hj]
  have hall : (∀ j' < j, ¬ (direntAt (content s'.disk (s'.cur i)) j').Is name) ↔
      ∀ j' < j, ¬ (direntAt (content s.disk (s.cur i)) j').Is name :=
    forall_congr' fun j' => imp_congr_right fun hj' => by rw [hent j' (by omega)]
  rw [hall]

theorem Live.of_dir (hty : (s.cur i).type = T_DIR) : Live s.sb s.cur i := by
  by_cases hi : i.toNat < s.sb.ninodes.toNat
  · exact ⟨hi, by rw [hty]; decide⟩
  · rw [cur, if_neg hi] at hty
    exact absurd hty (by decide)

theorem lookup_of_not_dir (hty : (s.cur i).type ≠ T_DIR) : s.lookup i name = none := if_neg hty

/-- The lookup in a directory that is in the cache. -/
theorem lookup_loaded (h : Inv s) (hk : s.Loaded k) (hty : (s.icache k).type = T_DIR) {j : ℕ}
    (hj : 16 * j + 16 ≤ (s.icache k).size.toNat) (his : (direntAt (s.data k) j).Is name)
    (hno : ∀ j' < j, ¬ (direntAt (s.data k) j').Is name) :
    s.lookup (s.icache k).inum name = some (direntAt (s.data k) j).inum.toUInt32 := by
  rw [lookup_eq_some, h.coh.cur_loaded hk]
  exact ⟨hty, j, hj, his, hno, rfl⟩

theorem lookup_loaded_none (h : Inv s) (hk : s.Loaded k)
    (hno : ∀ j, 16 * j < (s.icache k).size.toNat → ¬ (direntAt (s.data k) j).Is name) :
    s.lookup (s.icache k).inum name = none := by
  refine eq_none_iff_forall_not_mem.2 fun i' hi' => ?_
  rw [mem_def, lookup_eq_some, h.coh.cur_loaded hk] at hi'
  obtain ⟨-, j, hj, his, -⟩ := hi'
  exact hno j (by omega) his

/-! ### Nothing changes -/

theorem SameFiles.refl : SameFiles s s := ⟨rfl, fun _ => rfl, fun _ _ _ _ => rfl⟩

variable (h : SameFiles s s')

include h

theorem SameFiles.type : (s'.cur i).type = (s.cur i).type := by
  rw [h.inode i]

theorem SameFiles.live : Live s'.sb s'.cur i ↔ Live s.sb s.cur i := by
  rw [Live, Live, h.sb, h.inode i]

theorem SameFiles.trans (h' : SameFiles s' s'') : SameFiles s s'' where
  sb := h'.sb.trans h.sb
  inode i := by rw [h'.inode i, h.inode i]
  content i hl x hx := by
    rw [h'.content i (h.live.2 hl) x (by rw [h.inode i]; exact hx), h.content i hl x hx]

theorem SameFiles.lookup : s'.lookup i name = s.lookup i name := by
  by_cases hty : (s.cur i).type = T_DIR
  · exact lookup_congr (by rw [h.inode i]) (by rw [h.inode i]) (h.content i (.of_dir hty))
  · rw [lookup_of_not_dir hty, lookup_of_not_dir (by rw [h.inode i]; exact hty)]

theorem SameFiles.walk : s'.walk i names = s.walk i names := by
  have hlookup : s'.lookup = s.lookup := by
    funext i name
    exact h.lookup
  rw [State.walk, hlookup, State.walk]

theorem SameFiles.walkParent : s'.walkParent i names = s.walkParent i names := by
  simp only [State.walkParent, h.walk, h.type]

theorem SameFiles.isTree (ht : IsTree s) : IsTree s' where
  whole i hty := by
    rw [h.inode i] at hty ⊢
    exact ht.whole i hty
  root := h.live.2 ht.root
  live i name i' hl := by
    rw [h.lookup] at hl
    exact h.live.2 (ht.live i name i' hl)

omit h

theorem Same.sameFiles (h : Same s s') : SameFiles s s' where
  sb := h.sb
  inode i := by rw [h.cur]
  content i _ x _ := by rw [h.cur, h.disk]

/-- Reading a file leaves all files as they are. -/
theorem Looked.sameFiles (hl : Looked k s s') (h : Inv s) (hk : s.Loaded k) : SameFiles s s' where
  sb := hl.1.sb
  inode i := by
    by_cases hi : i = (s.icache k).inum
    · rw [hi, h.coh.cur_loaded hk, ← hl.1.inum, hl.1.inv.coh.cur_loaded (hl.1.loaded hk),
        hl.1.entry, hl.1.size]
    · rw [hl.1.cur i hi]
  content i hlive x _ := by
    by_cases hi : i = (s.icache k).inum
    · rw [hi, h.coh.cur_loaded hk, ← hl.1.inum, hl.1.inv.coh.cur_loaded (hl.1.loaded hk),
        content_eq hl.1.pages]
    · rw [hl.1.content hi hlive]

/-! ### Inodes that leave the cache -/

/-- Bookkeeping that leaves an inode as it is. -/
theorem Pinned.congr (h : Pinned n s k) (hs : Same s s')
    (hinum : (s'.icache k).inum = (s.icache k).inum) (href : (s.icache k).ref ≤ (s'.icache k).ref)
    (hload : s'.Loaded k → s.Loaded k ∧ (s'.icache k).toDinode = (s.icache k).toDinode) :
    Pinned n s' k where
  linked hlive hn := by
    rw [hinum, hs.sb, hs.cur] at hlive
    rw [hinum, hs.cur] at hn
    exact (h.linked hlive hn).trans_le href
  settled hk hle x hx := by
    obtain ⟨hk, hd⟩ := hload hk
    rw [hinum, hd, hs.disk, hs.dinode]
    rw [hd] at hx
    exact h.settled hk (href.trans hle) x hx

/-- An inode that `iget` returned. -/
theorem Got.pinned (h : Got i s k s') (hw : Wf X s) (hs : Same s s') : Pinned 1 s' k where
  linked hlive hn := by
    rw [h.inum, hs.sb, hs.cur] at hlive
    rw [h.inum, hs.cur] at hn
    obtain ⟨l, hl, he⟩ := (hw.inode i).linked hlive hn
    cases h with
    | hit href hinum =>
      rw [setInode_self]
      dsimp only
      push_cast
      omega
    | miss hnew hfree => exact absurd he (hnew l hl.1)
  settled hk hle := by
    cases h with
    | hit href hinum =>
      rw [setInode_self] at hle
      dsimp only at hle
      omega
    | miss hnew hfree =>
      rw [State.Loaded, setInode_self] at hk
      exact absurd hk.2 Bool.false_ne_true

/-- `iget` of an inode that is pinned already. -/
theorem Got.pinned_succ (h : Got i s k s') (hs : Same s s') (hk : 0 < (s.icache k).ref)
    (hp : Pinned n s k) : Pinned (n + 1) s' k := by
  cases h with
  | hit href hinum =>
    refine ⟨fun hlive hn => ?_, fun hk' hle x hx => ?_⟩
    · rw [setInode_self] at hlive hn ⊢
      dsimp only at hlive hn ⊢
      rw [hs.sb, hs.cur] at hlive
      rw [hs.cur] at hn
      have := hp.linked hlive hn
      push_cast
      omega
    · rw [State.Loaded, setInode_self] at hk'
      rw [setInode_self] at hle hx ⊢
      rw [hs.disk, hs.dinode]
      refine hp.settled ⟨href, hk'.2⟩ ?_ x hx
      push_cast at hle
      omega
  | miss hnew hfree => exact absurd hfree hk.ne'

theorem Pinned.lockIn (h : Pinned n s k) (hinv : Inv s) (hlive : Live s.sb s.cur (s.icache k).inum)
    (href : 0 < (s.icache k).ref) : Pinned n (s.lockIn k) k := by
  have hcur := (hinv.lockIn hlive href).2.1
  refine ⟨fun hl hn => ?_, fun _ hle x hx => ?_⟩
  · rw [State.lockIn, setInode_self]
    rw [hcur, State.lockIn, setInode_self] at hn
    exact h.linked hlive hn
  · rw [State.lockIn, setInode_self] at hle hx ⊢
    dsimp only at hle hx ⊢
    rw [setInode_disk, setInode_dinode]
    cases hv : (s.icache k).valid with
    | true =>
      have hk : s.Loaded k := ⟨href, hv⟩
      rw [hinv.coh.cur_loaded hk] at hx ⊢
      exact h.settled hk hle x hx
    | false => rw [cur_of_not_valid hinv href hv]

theorem Pinned.unlock {l : Slot} (h : Pinned n s k) (hs : Same s (s.unlock l)) :
    Pinned n (s.unlock l) k := by
  by_cases hl : k = l
  · subst hl
    refine h.congr hs ?_ ?_ fun hk => ?_ <;>
      simp only [State.unlock, State.Loaded, setInode_self] at *
    · exact le_rfl
    · exact ⟨hk, trivial⟩
  · refine h.congr hs ?_ ?_ fun hk => ?_ <;>
      simp only [State.unlock, State.Loaded, setInode_of_ne hl] at *
    · exact le_rfl
    · exact ⟨hk, trivial⟩

/-- Reading a file takes nothing from the disk. -/
theorem Pinned.looked (h : Pinned n s k) (hl : Looked k s s') (hinv : Inv s) (hk : s.Loaded k) :
    Pinned n s' k := by
  have hlook := hl.sameFiles hinv hk
  have hdin : s'.dinode (s.icache k).inum = s.dinode (s.icache k).inum := hl.1.own
  have href : (s'.icache k).ref = (s.icache k).ref := by rw [hl.1.entry]
  refine ⟨fun hlive hn => ?_, fun _ hle x hx => ?_⟩
  · rw [hl.1.inum] at hlive hn
    rw [hlook.inode] at hn
    rw [href]
    exact h.linked (hlook.live.1 hlive) hn
  · rw [href] at hle
    rw [hl.1.size] at hx
    have hdata : content s'.disk (s'.icache k).toDinode x =
        content s.disk (s.icache k).toDinode x := by
      rw [content_eq hl.1.pages]
    rw [hl.1.inum, hdin]
    by_cases h0 : blockAddr s'.disk (s.dinode (s.icache k).inum) (x / BSIZE) = 0
    · have hold : blockAddr s.disk (s.dinode (s.icache k).inum) (x / BSIZE) = 0 := by
        by_contra hne
        refine blockAddr_dinode_of_keep hinv hl.1.inv hl.1.sb (hinv.coh.range k hk.1).2 hdin
          (fun bn h1 => ?_) hne (hdin ▸ h0)
        rw [hinv.coh.cur_loaded hk] at h1 ⊢
        rw [← hl.1.inum, hl.1.inv.coh.cur_loaded (hl.1.loaded hk)]
        exact hl.1.keep bn h1
      rw [hdata, ← h.settled hk hle x hx, content, if_pos h0, content, if_pos hold]
    · have hne : blockAddr s'.disk (s'.dinode (s'.icache k).inum) (x / BSIZE) ≠ 0 := by
        rwa [hl.1.inum, hdin]
      have haddr := hl.1.inv.blockAddr_dinode (hl.1.inv.coh.range k (hl.1.loaded hk).1).2 hne
      rw [hl.1.inv.coh.cur_loaded (hl.1.loaded hk), hl.1.inum, hdin] at haddr
      rw [content, content, haddr]

/-- `iput` of a pinned inode drops a reference and no more. -/
theorem Pinned.put_eq (h : Pinned (n + 1) s k) (hinv : Inv s) (hp : Put s k s') :
    s' = s.setInode k fun ip => { ip with ref := ip.ref - 1 } := by
  cases hp with
  | last hk href hn hs =>
    have := h.linked (hinv.live hk) (by rw [hinv.coh.cur_loaded hk]; exact hn)
    omega
  | drop => rfl
  | more => rfl

/-- It leaves every file as it is. -/
theorem Pinned.put_sameFiles (h : Pinned (n + 1) s k) (hw : Wf X s) (hp : Put s k s') :
    SameFiles s s' := by
  cases hp with
  | last hk href hn hs =>
    have := h.linked (hw.inv.live hk) (by rw [hw.inv.coh.cur_loaded hk]; exact hn)
    omega
  | drop href hn =>
    have hcur := (hw.inv.drop (k := k) (f := fun ip => { ip with ref := ip.ref - 1 })
      (by dsimp only; rw [href]; rfl)).2
    by_cases hk : s.Loaded k
    · rw [if_pos hk] at hcur
      have hin := (hw.inv.coh.range k hk.1).2
      have hsync := (hw.inode (s.icache k).inum).synced hin
      refine ⟨rfl, fun i => ?_, fun i hl x hx => ?_⟩
      · by_cases hi : i = (s.icache k).inum
        · rw [hi, hcur, update_self, hsync]
        · rw [hcur, update_of_ne hi]
      · by_cases hi : i = (s.icache k).inum
        · subst hi
          rw [hw.inv.coh.cur_loaded hk] at hx
          rw [hcur, update_self, hw.inv.coh.cur_loaded hk, setInode_disk]
          exact h.settled hk (by omega) x hx
        · rw [hcur, update_of_ne hi, setInode_disk]
    · rw [if_neg hk] at hcur
      exact ⟨rfl, fun i => by rw [hcur], fun i _ x _ => by rw [hcur, setInode_disk]⟩
  | more href =>
    exact (hw.setBook (H := fun _ => 0) rfl rfl rfl rfl (by dsimp only; omega)
      (by dsimp only; omega)).2.sameFiles

/-- `iput` drops one reference. -/
theorem Pinned.put_self (h : Pinned (n + 1) s k) (hw : Wf X s) (hp : Put s k s') :
    Pinned n s' k := by
  have hstill := h.put_sameFiles hw hp
  obtain rfl := h.put_eq hw.inv hp
  refine ⟨fun hlive hn => ?_, fun hk hle x hx => ?_⟩
  · rw [setInode_self] at hlive hn ⊢
    dsimp only at hlive hn ⊢
    rw [hstill.inode] at hn
    have := h.linked (hstill.live.1 hlive) hn
    push_cast at this
    omega
  · rw [State.Loaded, setInode_self] at hk
    rw [setInode_self] at hle hx ⊢
    dsimp only at hk hle hx ⊢
    rw [setInode_disk, setInode_dinode]
    refine h.settled ⟨?_, hk.2⟩ ?_ x hx
    · have := hk.1
      omega
    · push_cast
      omega

/-- `iput` of another inode. -/
theorem Pinned.put_other {l : Slot} {m : ℕ} (h : Pinned n s l) (hw : Wf X s)
    (hpin : Pinned (m + 1) s k) (hp : Put s k s') (hlk : l ≠ k) : Pinned n s' l := by
  have hstill := hpin.put_sameFiles hw hp
  obtain rfl := hpin.put_eq hw.inv hp
  refine ⟨fun hlive hn => ?_, fun hk hle x hx => ?_⟩
  · rw [setInode_of_ne hlk] at hlive hn ⊢
    rw [hstill.inode] at hn
    exact h.linked (hstill.live.1 hlive) hn
  · rw [State.Loaded, setInode_of_ne hlk] at hk
    rw [setInode_of_ne hlk] at hle hx ⊢
    rw [setInode_disk, setInode_dinode]
    exact h.settled hk hle x hx

end Tree
end Xv6.Fs
