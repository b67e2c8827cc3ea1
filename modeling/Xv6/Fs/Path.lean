/-
# Paths

`skipelem`, `namex`, `namei` and `nameiparent` of `fs.c`.  A path is the list of
its bytes before the terminating zero; `names` are its elements, which are its parts
between slashes (`names_eq_segments`).  `namex` follows the names through the
directories, locking one inode at a time.  Bytes of a name past its end are zero here;
`namecmp` does not look at them.

`namex_walked` says what holds whenever `namex` returns: the file system is
well-formed, all files and the locks are as before, the caller holds one more reference,
and the inode is the one the names lead to (`State.walk`, `State.walkParent`).  It says
too when `namex` does not return: if it has to wait for a lock, or there is no room in
the inode cache.  On a tree (`IsTree`) there is no other reason.
-/

import Mathlib.Data.List.DropRight
import Mathlib.Tactic.Abel
import Xv6.Fs.Tree

namespace Xv6.Fs

open Function Lib List Option

/-- The character `/`. -/
abbrev slash : UInt8 := 47

/-- Copy the next path element: the element, and the path after it without leading
slashes. -/
def skipelem (path : List UInt8) : Option (Buf DIRSIZ × List UInt8) :=
  match path.dropWhile (· == slash) with
  | [] => none
  | c :: s =>
      let elem := c :: s.takeWhile (· != slash)
      let rest := s.dropWhile (· != slash)
      some (fun i => elem.getD i 0, rest.dropWhile (· == slash))

variable {rest : List UInt8} {Q : PUnit → State → Prop} {ns : List (Buf DIRSIZ)}
  {path : List UInt8} {name : Buf DIRSIZ}

theorem skipelem_length (h : skipelem path = some (name, rest)) : rest.length < path.length := by
  unfold skipelem at h
  split at h
  · cases h
  · next c s hp =>
    obtain ⟨-, rfl⟩ := Prod.mk.inj (some.inj h)
    have h1 : (c :: s).length ≤ path.length := hp ▸ (dropWhile_sublist _).length_le
    have h2 : ((s.dropWhile (· != slash)).dropWhile (· == slash)).length ≤ s.length :=
      (dropWhile_sublist _).length_le.trans (dropWhile_sublist _).length_le
    rw [length_cons] at h1
    omega

/-- The rest of a path starts with an element or is empty. -/
theorem skipelem_rest (h : skipelem path = some (name, rest)) :
    skipelem rest = none ↔ rest = [] := by
  unfold skipelem at h
  split at h
  · cases h
  · next c s hp =>
    obtain ⟨-, rfl⟩ := Prod.mk.inj (some.inj h)
    generalize (s.dropWhile (· != slash)) = l
    unfold skipelem
    rw [dropWhile_idempotent]
    cases l.dropWhile (· == slash) <;> simp

/-- The elements of a path. -/
def names (path : List UInt8) : List (Buf DIRSIZ) :=
  match _h : skipelem path with
  | none => []
  | some (name, rest) => name :: names rest
termination_by path.length
decreasing_by exact skipelem_length _h

theorem names_none (h : skipelem path = none) : names path = [] := by
  rw [names]
  split
  · rfl
  · next hs => rw [h] at hs; cases hs

theorem names_some (h : skipelem path = some (name, rest)) : names path = name :: names rest := by
  rw [names]
  split
  · next hs => rw [h] at hs; cases hs
  · next hs => rw [h] at hs; cases hs; rfl

/-- The name of an element, cut to `DIRSIZ` bytes. -/
def cut (elem : List UInt8) : Buf DIRSIZ := fun i => elem.getD i 0

/-- The longest parts of a path without slashes that are not empty. -/
def parts (path : List UInt8) : List (List UInt8) := (path.splitOn slash).filter (· ≠ [])

/-- The names in a path: its parts, each cut to `DIRSIZ` bytes. -/
def segments (path : List UInt8) : List (Buf DIRSIZ) := (parts path).map cut

theorem parts_slash (path : List UInt8) : parts (slash :: path) = parts path := by
  have h : ([] ++ slash :: path).splitOnP (· == slash) = [] :: path.splitOnP (· == slash) :=
    splitOnP_append_cons_of_forall_mem (fun _ h => absurd h not_mem_nil) slash (by simp) path
  rw [nil_append] at h
  rw [parts, splitOn, h]
  rfl

theorem parts_dropWhile (path : List UInt8) : parts (path.dropWhile (· == slash)) = parts path := by
  induction path with
  | nil => rfl
  | cons c path ih =>
    by_cases hc : c = slash
    · rw [hc, dropWhile_cons_of_pos (by simp), ih, parts_slash]
    · rw [dropWhile_cons_of_neg (by simpa using hc)]

/-- An element, up to a slash or the end, is the first part. -/
theorem parts_append {elem : List UInt8} (hne : elem ≠ []) (he : ∀ c ∈ elem, c ≠ slash)
    (hrest : rest = [] ∨ ∃ l, rest = slash :: l) : parts (elem ++ rest) = elem :: parts rest := by
  have he' : ∀ c ∈ elem, (c == slash) = false := fun c hc => by simpa using he c hc
  rcases hrest with rfl | ⟨l, rfl⟩
  · rw [append_nil, parts, splitOn, splitOnP_eq_singleton he']
    simp [hne, parts, splitOn]
  · rw [parts_slash, parts, splitOn,
      splitOnP_append_cons_of_forall_mem he' slash (beq_self_eq_true _)]
    simp [hne, parts, splitOn]

/-- What is left after an element is empty or starts with a slash. -/
theorem dropWhile_not_slash (l : List UInt8) :
    l.dropWhile (· != slash) = [] ∨ ∃ l', l.dropWhile (· != slash) = slash :: l' := by
  induction l with
  | nil => exact .inl rfl
  | cons c l ih =>
    by_cases hc : c = slash
    · rw [dropWhile_cons_of_neg (by simp [hc]), hc]
      exact .inr ⟨l, rfl⟩
    · rwa [dropWhile_cons_of_pos (by simpa using hc)]

theorem skipelem_parts (h : skipelem path = some (name, rest)) :
    ∃ elem, name = cut elem ∧ parts path = elem :: parts rest := by
  unfold skipelem at h
  split at h
  · cases h
  · next c s hp =>
    obtain ⟨rfl, rfl⟩ := Prod.mk.inj (some.inj h)
    have hc : c ≠ slash := by
      have := head?_dropWhile_not (· == slash) path
      rw [hp] at this
      simpa using this
    refine ⟨c :: s.takeWhile (· != slash), rfl, ?_⟩
    rw [parts_dropWhile, ← parts_dropWhile path, hp, ← parts_append (cons_ne_nil _ _) _
      (dropWhile_not_slash s), cons_append, takeWhile_append_dropWhile]
    intro d hd
    rcases mem_cons.1 hd with rfl | hd
    · exact hc
    · simpa using mem_takeWhile_imp hd

/-- **`skipelem` goes through the segments of the path.** -/
theorem names_eq_segments (path : List UInt8) : names path = segments path := by
  induction path using names.induct with
  | case1 path hskip =>
    rw [names_none hskip, segments, ← parts_dropWhile]
    unfold skipelem at hskip
    split at hskip
    · next hp => rw [hp]; rfl
    · cases hskip
  | case2 path name rest hskip ih =>
    obtain ⟨elem, rfl, hparts⟩ := skipelem_parts hskip
    rw [names_some hskip, ih, segments, segments, hparts, map_cons]

/-- The loop of `namex`: follow the path from the inode `ip`; `name` is the last
element copied. -/
def namexLoop (nameiparent : Bool) (ip : Slot) (path : List UInt8) (name : Buf DIRSIZ) :
    Prog State (Option (Slot × Buf DIRSIZ)) :=
  match _h : skipelem path with
  | none =>
      if nameiparent then do
        iput ip
        return none
      else return some (ip, name)
  | some (name, rest) => do
      ilock ip
      if (← getInode ip).type ≠ T_DIR then
        iunlockput ip
        return none
      else if nameiparent ∧ rest = [] then
        iunlock ip
        return some (ip, name)
      else
        match ← dirlookup ip name with
        | none => do
            iunlockput ip
            return none
        | some (next, _) => do
            iunlockput ip
            namexLoop nameiparent next rest name
termination_by path.length
decreasing_by exact skipelem_length _h

/-- Look up the inode for a path name, or its parent and the final path element;
`cwd` is the current directory. -/
def namex (cwd : Slot) (path : List UInt8) (nameiparent : Bool) :
    Prog State (Option (Slot × Buf DIRSIZ)) := do
  let ip ← if path.head? = some slash then iget ROOTDEV ROOTINO else idup cwd
  namexLoop nameiparent ip path Buf.zero

/-- The inode of a path. -/
def namei (cwd : Slot) (path : List UInt8) : Prog State (Option Slot) := do
  return (← namex cwd path false).map Prod.fst

/-- The parent directory of a path, and the last element. -/
def nameiparent (cwd : Slot) (path : List UInt8) : Prog State (Option (Slot × Buf DIRSIZ)) :=
  namex cwd path true

/-- The inode where a path starts. -/
def State.start (s : State) (cwd : Slot) (path : List UInt8) : UInt32 :=
  if path.head? = some slash then ROOTINO else (s.icache cwd).inum

section Path

variable {X : UInt32 → Prop} {H : Slot → ℕ} {s s' : State} {k ip cwd : Slot} {i : UInt32}
  {parent : Bool} {path : List UInt8} {name : Buf DIRSIZ} {E : Fail → Prop} {R T : Prop}
  {ρ : Slot → ℤ}

/-- The references held after `namex` has returned. -/
def gain (H : Slot → ℕ) : Option (Slot × Buf DIRSIZ) → Slot → ℕ
  | none => H
  | some (ip, _) => addRef H ip

/-- Two entries of the inode cache are free. -/
def Room (ρ : Slot → ℤ) : Prop := ∃ k l, k ≠ l ∧ ρ k = 0 ∧ ρ l = 0

/-- How resolving a name can fail: `L` says that an inode is locked, `R` that there is
room in the inode cache, `T` that the directories form a tree. -/
structure Fails (E : Fail → Prop) (L R T : Prop) : Prop where
  sleep : L → E .sleep
  full : ¬ R → E (.panic "iget: no inodes")
  noType : ¬ T → E (.panic "ilock: no type")
  read : ¬ T → E (.panic "dirlookup read")

/-- The result of `namex` is what the names lead to. -/
def Found (parent : Bool) (s : State) (i : UInt32) (ns : List (Buf DIRSIZ))
    (r : Option (Slot × Buf DIRSIZ)) (s' : State) : Prop :=
  if parent then r.map (fun p => ((s'.icache p.1).inum, p.2)) = s.walkParent i ns
  else r.map (fun p => (s'.icache p.1).inum) = s.walk i ns

/-- What holds when `namex` has returned. -/
structure Walked (X : UInt32 → Prop) (H : Slot → ℕ) (ρ : Slot → ℤ) (parent : Bool) (i : UInt32)
    (ns : List (Buf DIRSIZ)) (s : State) (r : Option (Slot × Buf DIRSIZ)) (s' : State) : Prop where
  evolves : Evolves X H s s'
  locks : s'.locks = s.locks
  refs : Refs (gain H r) s'
  count : s'.refs = ρ + oneRefTo r
  files : SameFiles s s'
  pinned : ∀ ip name, r = some (ip, name) → Pinned 1 s' ip
  found : Found parent s i ns r s'

theorem Room.exists_free (h : Room ρ) (ip : Slot) : ∃ l, (ρ + oneRef ip) l = 0 := by
  obtain ⟨k, l, hne, hk, hl⟩ := h
  by_cases hkip : k = ip
  · exact ⟨l, by rw [Pi.add_apply, oneRef, Pi.single_eq_of_ne fun h => hne (hkip.trans h.symm), hl,
      add_zero]⟩
  · exact ⟨k, by rw [Pi.add_apply, oneRef, Pi.single_eq_of_ne hkip, hk, add_zero]⟩

/-- Entry `k` has been locked in between, and a reference to it is held. -/
structure Locked (X : UInt32 → Prop) (H : Slot → ℕ) (k : Slot) (s s₁ : State) : Prop where
  evolves : Evolves X H s s₁
  refs : Refs (addRef H k) s₁
  unlocked : s.locks k = false
  locks : s₁.locks = update s.locks k true
  loaded : s₁.Loaded k

/-- **`ilock`.** -/
theorem wp_ilock_locked (hw : Wf X s) (hr : Refs (addRef H k) s)
    (hsleep : s.locks k = true → E .sleep)
    (htype : (s.cur (s.icache k).inum).type = 0 → E (.panic "ilock: no type"))
    (hQ : Live s.sb s.cur (s.icache k).inum → Locked X H k s (s.lockIn k) →
      Evolves X (addRef H k) s (s.lockIn k) → Same s (s.lockIn k) → Q ⟨⟩ (s.lockIn k)) :
    wp (ilock k) E Q s := by
  refine wp_ilock hw.inv (fun hc => absurd hr.pos_self (by omega)) hsleep htype
    fun href hunl hlive => ?_
  obtain ⟨hev, hs, hk⟩ := hw.lockIn (H := addRef H k) hlive href
  exact hQ hlive ⟨hev.of_addRef, refs_lockIn hr, hunl, locks_lockIn, hk⟩ hev hs

namespace Locked

variable {s₁ s2 : State}

variable (h : Locked X H k s s₁)

include h

theorem locks_back (hl : s2.locks = update s₁.locks k false) : s2.locks = s.locks := by
  rw [hl, h.locks, update_idem, ← h.unlocked]
  exact update_eq_self k s.locks

/-- The directory has been read. -/
theorem looked (hl : Looked k s₁ s2) : Locked X H k s s2 where
  evolves := h.evolves.trans (hl.evolves h.evolves.wf h.loaded)
  refs := hl.1.refs h.refs
  unlocked := h.unlocked
  locks := hl.1.locks.trans h.locks
  loaded := hl.1.loaded h.loaded

/-- **`iunlock`.** -/
theorem iunlock (hQ : Evolves X H s (s₁.unlock k) → (s₁.unlock k).locks = s.locks →
      Refs (addRef H k) (s₁.unlock k) → Same s₁ (s₁.unlock k) → Q ⟨⟩ (s₁.unlock k)) :
    wp (iunlock k) E Q s₁ := by
  have hlocked : s₁.locks k = true := by rw [h.locks, update_self]
  refine wp_iunlock_locked h.loaded.1 hlocked ?_
  obtain ⟨hev, hs⟩ := h.evolves.wf.unlock (H := H) (k := k)
  exact hQ (h.evolves.trans hev) (h.locks_back locks_unlock) (refs_unlock h.refs) hs

/-- **`iunlockput`**, with the references `G` held. -/
theorem iunlockput {G : Slot → ℕ} (hG : Refs (addRef G k) s₁)
    (hQ : ∀ s', Put (s₁.unlock k) k s' → Evolves X H s s' → Evolves X G s₁ s' →
      s'.locks = s.locks → Refs G s' → Q ⟨⟩ s') :
    wp (iunlockput k) E Q s₁ := by
  unfold Fs.iunlockput
  rw [wp_bind]
  refine h.iunlock fun hev hlocks hr _ => ?_
  obtain ⟨hevG, -⟩ := h.evolves.wf.unlock (H := G) (k := k)
  have hunl : (s₁.unlock k).locks k = false := by rw [hlocks, h.unlocked]
  refine wp_iput hev.wf.inv hr.pos_self (fun hc => by rw [hunl] at hc; cases hc) fun hl s' hp => ?_
  obtain ⟨hev', -⟩ := hp.evolves hev.wf hr
  obtain ⟨hevG', hr'⟩ := hp.evolves hev.wf (refs_unlock hG)
  exact hQ s' hp (hev.trans hev') (hevG.trans hevG') ((hp.locks hl).trans hlocks) hr'

/-- A reference to an inode has been got. -/
theorem got {i' : UInt32} {next : Slot} (hg : Got i' s₁ next s2)
    (hi : i'.toNat < s₁.sb.ninodes.toNat) :
    Locked X H k s s2 ∧ Same s₁ s2 ∧ Refs (addRef (addRef H next) k) s2 := by
  obtain ⟨hev, hs, hr⟩ := hg.evolves h.evolves.wf hi h.refs
  refine ⟨⟨h.evolves.trans hev.of_addRef, hr.of_addRef, h.unlocked, hg.locks.trans h.locks,
    (hs.loaded k h.loaded).1⟩, hs, ?_⟩
  rwa [addRef_comm] at hr

end Locked

/-- The counts after an inode was unlocked and dropped. -/
theorem Put.count (hp : Put (s.unlock k) k s') (hs : s.refs = ρ + oneRef k) : s'.refs = ρ := by
  rw [hp.refs_eq, State.unlock, refs_setInode_same rfl, hs, add_sub_cancel_right]

/-- `iunlockput` of a directory after an inode was found in it: the files are as they
were, and the inode found stays. -/
theorem sameFiles_next {next : Slot} {s2 s3 : State} (hw : Wf X s) (hk : s.Loaded k)
    (hpin : Pinned 1 s k) (hg : Got i s next s2) (hi : i.toNat < s.sb.ninodes.toNat)
    (hp : Put (s2.unlock k) k s3) : SameFiles s s3 ∧ Pinned 1 s3 next := by
  have hr : Refs (fun _ => 0) s := fun l => hw.inv.coh.nonneg l
  obtain ⟨hev, hs, -⟩ := hg.evolves hw hi hr
  obtain ⟨hev', hs'⟩ := hev.wf.unlock (H := fun _ => 0) (k := k)
  have hfiles := hs.sameFiles.trans hs'.sameFiles
  by_cases hn : next = k
  · subst hn
    have hpin2 := (hg.pinned_succ hs hk.1 hpin).unlock hs'
    exact ⟨hfiles.trans (hpin2.put_sameFiles hev'.wf hp), hpin2.put_self hev'.wf hp⟩
  · have hsame := hg.others (Ne.symm hn)
    have hpin2 : Pinned 1 (s2.unlock k) k := by
      refine Pinned.unlock (hpin.congr hs (by rw [hsame]) (by rw [hsame]) fun hk' => ?_) hs'
      rw [State.Loaded, hsame] at hk'
      exact ⟨hk', by rw [hsame]⟩
    exact ⟨hfiles.trans (hpin2.put_sameFiles hev'.wf hp),
      ((hg.pinned hw hs).unlock hs').put_other hev'.wf hpin2 hp hn⟩

/-- `iunlockput` of a directory. -/
theorem sameFiles_put {s3 : State} (hw : Wf X s) (hpin : Pinned 1 s k)
    (hp : Put (s.unlock k) k s3) : SameFiles s s3 := by
  obtain ⟨hev', hs'⟩ := hw.unlock (H := fun _ => 0) (k := k)
  exact hs'.sameFiles.trans ((hpin.unlock hs').put_sameFiles hev'.wf hp)

/-- Nothing is found, and nothing is held any more. -/
theorem Walked.none (hev : Evolves X H s s') (hl : s'.locks = s.locks) (hr : Refs H s')
    (hc : s'.refs = ρ) (hf : SameFiles s s') (hpar : parent = true → s.walkParent i ns = none)
    (hname : parent = false → s.walk i ns = none) : Walked X H ρ parent i ns s none s' where
  evolves := hev
  locks := hl
  refs := hr
  count := hc.trans (add_zero ρ).symm
  files := hf
  pinned _ _ h := by cases h
  found := by
    cases parent with
    | true => exact (hpar rfl).symm
    | false => exact (hname rfl).symm

/-- A step from a directory to the inode that a name has in it. -/
theorem Walked.step {i' : UInt32} {s₁ : State} {r : Option (Slot × Buf DIRSIZ)}
    (hev : Evolves X H s s₁) (hl : s₁.locks = s.locks) (hf : SameFiles s s₁)
    (hlook : s.lookup i name = some i') (hlast : parent = true → ns ≠ [])
    (h : Walked X H ρ parent i' ns s₁ r s') : Walked X H ρ parent i (name :: ns) s r s' where
  evolves := hev.trans h.evolves
  locks := h.locks.trans hl
  refs := h.refs
  count := h.count
  files := hf.trans h.files
  pinned := h.pinned
  found := by
    have hfound := h.found
    cases parent with
    | true =>
      rw [Found, if_pos rfl] at hfound ⊢
      rw [walkParent_cons (hlast rfl), hlook, hfound, hf.walkParent, bind_some]
    | false =>
      rw [Found, if_neg Bool.false_ne_true] at hfound ⊢
      rw [walk_cons, hlook, hfound, hf.walk, bind_some]

/-- A name that is not there leads nowhere. -/
theorem walk_none_of_lookup (h : s.lookup i name = none) :
    s.walk i (name :: ns) = none := by rw [walk_cons, h, bind_none]

theorem walkParent_none_of_lookup (hns : ns ≠ [])
    (h : s.lookup i name = none) : s.walkParent i (name :: ns) = none := by
  rw [walkParent_cons hns, h, bind_none]

theorem walkParent_of_not_dir (hty : (s.cur i).type ≠ T_DIR) : s.walkParent i ns = none := by
  rcases ns with _ | ⟨name, ns⟩
  · rfl
  · by_cases hns : ns = []
    · rw [hns, walkParent_singleton, if_neg hty]
    · exact walkParent_none_of_lookup hns (lookup_of_not_dir hty)

/-- **The loop of `namex`.** -/
theorem namexLoop_walked (n : ℕ) :
    ∀ {path : List UInt8} {s : State} {ip : Slot} {name : Buf DIRSIZ}, path.length ≤ n →
    Fails E (∃ k, s.locks k = true) (Room ρ) T → Wf X s → Refs (addRef H ip) s →
    s.refs = ρ + oneRef ip → Pinned 1 s ip →
    (T → IsTree s ∧ Live s.sb s.cur (s.icache ip).inum) →
    wp (namexLoop parent ip path name) E
      (Walked X H ρ parent (s.icache ip).inum (names path) s) s := by
  induction n using Nat.strong_induction_on with
  | _ n ih =>
    intro path s ip name hlen hE hw hr hc hpin hT
    rw [namexLoop]
    split
    · next hskip =>
      rw [names_none hskip, wp_ite]
      refine ⟨fun hpar => ?_, fun hpar => ?_⟩
      · simp only [wp_bind, wp_pure]
        refine wp_iput hw.inv hr.pos_self (fun hl => hE.sleep ⟨ip, hl⟩) fun hl s' hp => ?_
        obtain ⟨hev, hr'⟩ := hp.evolves hw hr
        refine .none hev (hp.locks hl) hr' ?_ (hpin.put_sameFiles hw hp) (fun _ => rfl)
          fun hc => absurd hpar (by rw [hc]; decide)
        rw [hp.refs_eq, hc, add_sub_cancel_right]
      · rw [wp_pure]
        refine ⟨.refl hw, rfl, hr, hc, .refl, fun k name he => ?_, ?_⟩
        · obtain ⟨rfl, rfl⟩ := Prod.mk.inj (some.inj he)
          exact hpin
        · rw [Found, if_neg hpar]
          rfl
    · next name' rest hskip =>
      rw [names_some hskip, wp_bind]
      refine wp_ilock_locked hw hr (fun hl => hE.sleep ⟨ip, hl⟩)
        (fun h0 => hE.noType fun ht => (hT ht).2.2 h0) fun hlive hlk hev1 hs1 => ?_
      have hinum1 := hev1.inum ip (by rw [addRef_self]; omega)
      have hc1 : (s.lockIn ip).refs = ρ + oneRef ip := (refs_setInode_same rfl).trans hc
      have hpin1 := hpin.lockIn hw.inv hlive hr.pos_self
      have hw1 := hlk.evolves.wf
      generalize s.lockIn ip = s₁ at *
      have hcur1 := hw1.inv.coh.cur_loaded hlk.loaded
      rw [hinum1, hs1.cur] at hcur1
      unfold getInode
      simp only [wp_bind, wp_get, wp_pure, wp_ite]
      refine ⟨fun hty => ?_, fun hty => ⟨fun hlast => ?_, fun hlast => ?_⟩⟩
      · refine hlk.iunlockput hlk.refs fun s' hp hev _ hl hr' => ?_
        have hnd : (s.cur (s.icache ip).inum).type ≠ T_DIR := by rwa [hcur1]
        exact .none hev hl hr' (hp.count hc1) (hs1.sameFiles.trans (sameFiles_put hw1 hpin1 hp))
          (fun _ => walkParent_of_not_dir hnd) fun _ => walk_none_of_lookup (lookup_of_not_dir hnd)
      · refine hlk.iunlock fun hev hl hr' hs2 => ?_
        refine ⟨hev, hl, hr', (refs_setInode_same rfl).trans hc1,
          hs1.sameFiles.trans hs2.sameFiles, fun k nm he => ?_, ?_⟩
        · obtain ⟨rfl, rfl⟩ := Prod.mk.inj (some.inj he)
          exact hpin1.unlock hs2
        · have hinum : ((s₁.unlock ip).icache ip).inum = (s₁.icache ip).inum := by
            rw [State.unlock, setInode_self]
          rw [Found, if_pos hlast.1, names_none ((skipelem_rest hskip).2 hlast.2),
            walkParent_singleton, hcur1, if_pos (not_not.1 hty), map_some, hinum, hinum1]
      · have hty := not_not.1 hty
        have hrest : parent = true → names rest ≠ [] := fun hpar hnil => by
          refine hlast ⟨hpar, (skipelem_rest hskip).1 ?_⟩
          cases hs : skipelem rest with
          | none => rfl
          | some p => rw [names_some hs] at hnil; cases hnil
        have hlook : ∀ name, s₁.lookup (s₁.icache ip).inum name =
            s.lookup (s.icache ip).inum name := fun name => by
          rw [hs1.sameFiles.lookup, hinum1]
        refine wp_dirlookup hw1.inv hlk.loaded (fun hc => absurd hty hc) (fun h16 => ?_)
          (fun s2 _ _ hno hl => ?_) fun j s2 _ hfit his hno hl => ?_
        · refine hE.read fun ht => h16 ?_
          have := (hT ht).1.whole (s.icache ip).inum (by rw [hcur1]; exact hty)
          rwa [hcur1] at this
        · simp only [wp_bind, wp_pure]
          have hlk2 := hlk.looked hl
          refine hlk2.iunlockput hlk2.refs fun s' hp hev _ hl' hr' => ?_
          have hnone := lookup_loaded_none hw1.inv hlk.loaded hno
          rw [hlook] at hnone
          refine .none hev hl' hr' (hp.count (hl.1.refs_eq.trans hc1)) ?_
            (fun hpar => walkParent_none_of_lookup (hrest hpar) hnone)
            fun _ => walk_none_of_lookup hnone
          exact (hs1.sameFiles.trans (hl.sameFiles hw1.inv hlk.loaded)).trans
            (sameFiles_put hlk2.evolves.wf (hpin1.looked hl hw1.inv hlk.loaded) hp)
        · have hlk2 := hlk.looked hl
          have hw2 := hlk2.evolves.wf
          have hc2 := hl.1.refs_eq.trans hc1
          have hi : (direntAt (s₁.data ip) j).inum.toUInt32.toNat < s2.sb.ninodes.toNat := by
            rw [hl.1.sb]
            exact hw1.entry_lt hlk.loaded hty hfit
          have hsome := lookup_loaded hw1.inv hlk.loaded hty hfit his hno
          rw [hlook] at hsome
          refine wp_iget hw2.inv (fun _ hfull => hE.full fun hroom => ?_) fun next s3 hg => ?_
          · obtain ⟨l, hl⟩ := hroom.exists_free ip
            exact hfull l (by rw [← hc2] at hl; exact hl)
          obtain ⟨hlk3, hs3, hr3⟩ := hlk2.got hg hi
          simp only [wp_bind]
          refine hlk3.iunlockput hr3 fun s5 hp hev hevG hl5 hr5 => ?_
          obtain ⟨hfiles, hpin5⟩ := sameFiles_next hw2 (hl.1.loaded hlk.loaded)
            (hpin1.looked hl hw1.inv hlk.loaded) hg hi hp
          have hfiles := (hs1.sameFiles.trans (hl.sameFiles hw1.inv hlk.loaded)).trans hfiles
          have hinum5 : (s5.icache next).inum = (direntAt (s₁.data ip) j).inum.toUInt32 := by
            rw [hevG.inum next (by rw [addRef_self]; omega), hg.inum]
          have hc5 : s5.refs = ρ + oneRef next := by
            refine hp.count ?_
            rw [hg.refs_eq, hc2]
            abel
          have hrun : wp (namexLoop parent next rest name') E
              (Walked X H ρ parent (s5.icache next).inum (names rest) s5) s5 :=
            ih rest.length ((skipelem_length hskip).trans_le hlen) le_rfl (hl5 ▸ hE) hev.wf hr5 hc5
              hpin5 fun ht => ⟨hfiles.isTree (hT ht).1, hfiles.live.2 (by
                rw [hinum5]; exact (hT ht).1.live _ _ _ hsome)⟩
          rw [hinum5] at hrun
          exact wp_mono hrun fun r s' hw' => hw'.step hev hl5 hfiles hsome hrest

/-- **`namex` keeps the file system well-formed and finds what the path leads to**,
if it returns. -/
theorem namex_walked (parent : Bool) (cwd : Slot) (path : List UInt8)
    (hE : Fails E (∃ k, s.locks k = true) (Room s.refs) T) (hw : Wf X s)
    (hr : Refs H s) (hcwd : path.head? ≠ some slash → 0 < H cwd)
    (hT : T → IsTree s ∧ Live s.sb s.cur (s.start cwd path)) :
    wp (namex cwd path parent) E
      (Walked X H s.refs parent (s.start cwd path) (names path) s) s := by
  have hgot : ∀ ip s₁, Got (s.start cwd path) s ip s₁ →
      (s.start cwd path).toNat < s.sb.ninodes.toNat →
      wp (namexLoop parent ip path Buf.zero) E
        (Walked X H s.refs parent (s.start cwd path) (names path) s) s₁ := by
    intro ip s₁ hg hi
    obtain ⟨hev, hs, hr1⟩ := hg.evolves hw hi hr
    have hrun : wp (namexLoop parent ip path Buf.zero) E
        (Walked X H s.refs parent (s₁.icache ip).inum (names path) s₁) s₁ :=
      namexLoop_walked path.length le_rfl (by rw [hg.locks]; exact hE) hev.wf hr1 hg.refs_eq
        (hg.pinned hw hs) fun ht =>
          ⟨hs.sameFiles.isTree (hT ht).1, hs.sameFiles.live.2 (by rw [hg.inum]; exact (hT ht).2)⟩
    rw [hg.inum] at hrun
    refine wp_mono hrun fun r s' h => ⟨hev.trans h.evolves, h.locks.trans hg.locks, h.refs, h.count,
      hs.sameFiles.trans h.files, h.pinned, ?_⟩
    have hfound := h.found
    rwa [Found, hs.sameFiles.walkParent, hs.sameFiles.walk] at hfound
  unfold namex
  simp only [wp_ite, wp_bind]
  refine ⟨fun habs => ?_, fun hrel => ?_⟩
  · have hstart : s.start cwd path = ROOTINO := if_pos habs
    rw [hstart] at hgot ⊢
    refine wp_iget hw.inv (fun _ hfull => hE.full fun hroom => ?_) fun ip s₁ hg =>
      hgot ip s₁ hg hw.inv.fmt.geom.root_lt
    obtain ⟨k, -, -, hk, -⟩ := hroom
    exact hfull k hk
  · have hstart : s.start cwd path = (s.icache cwd).inum := if_neg hrel
    have hpos := hr.pos (hcwd hrel)
    rw [hstart] at hgot ⊢
    exact wp_idup hpos fun s₁ hg => hgot cwd s₁ hg (hw.inv.coh.range cwd hpos).2

end Path
end Xv6.Fs
