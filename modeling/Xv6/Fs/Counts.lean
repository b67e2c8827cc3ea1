/-
# What the code does to the reference counts

Every function of `fs.c` changes the reference counts of the inode cache by an
amount that depends only on what it returns: `iget` and `idup` add one at the
entry they return, `iput` takes one away, and everything else is made of these
(`Shifts`).  An entry is given to another inode only when its count is zero, so
no inode is ever held by two entries (`State.Unique`).

The rules below follow the way a program is built: what the calls of a program
add up to is what the program does.
-/

import Xv6.Fs.File
import Xv6.Fs.Sysfile

namespace Xv6.Fs

open Lib Option

/-- No two entries in use hold the same inode. -/
def State.Unique (s : State) : Prop := ∀ k l, 0 < (s.icache k).ref → 0 < (s.icache l).ref →
  (s.icache k).dev = (s.icache l).dev → (s.icache k).inum = (s.icache l).inum → k = l

/-- The reference counts have changed by `d`. -/
structure Moves (d : Slot → ℤ) (s s' : State) : Prop where
  ref : ∀ k, (s'.icache k).ref = (s.icache k).ref + d k
  unique : s.Unique → s'.Unique

/-- When `m` returns `a` from `s`, the counts have changed by `d a`. -/
def Shifts {α : Type} (m : Prog State α) (d : α → Slot → ℤ) (s : State) : Prop :=
  wp m (fun _ => True) (fun a s' => Moves (d a) s s') s

/-- `m` leaves the counts as they are. -/
def Still {α : Type} (m : Prog State α) : Prop := ∀ s, Shifts m (fun _ => 0) s

section Rules

variable {α β : Type} {m : Prog State α} {f : α → Prog State β} {d : α → Slot → ℤ}
  {e : β → Slot → ℤ} {s s' s'' : State} {k : Slot}

theorem Moves.refl : Moves 0 s s := ⟨fun _ => (add_zero _).symm, id⟩

theorem Moves.trans {c c' : Slot → ℤ} (h : Moves c s s') (h' : Moves c' s' s'') :
    Moves (c + c') s s'' :=
  ⟨fun k => by rw [h'.ref, h.ref, Pi.add_apply, add_assoc], h'.unique ∘ h.unique⟩

/-- Entries that keep their inode and count. -/
theorem Moves.of_same (h : ∀ k, (s'.icache k).ref = (s.icache k).ref ∧
    (s'.icache k).dev = (s.icache k).dev ∧ (s'.icache k).inum = (s.icache k).inum) :
    Moves 0 s s' where
  ref k := by rw [(h k).1, Pi.zero_apply, add_zero]
  unique hu k l := by
    obtain ⟨hr, hd, hi⟩ := h k
    obtain ⟨hr', hd', hi'⟩ := h l
    rw [hr, hd, hi, hr', hd', hi']
    exact hu k l

theorem Shifts.pure {a : α} (h : d a = 0) : Shifts (pure a) d s := by
  rw [Shifts, wp_pure, h]
  exact .refl

/-- What a program does is the sum of what its calls do. -/
theorem Shifts.bind (hm : Shifts m d s)
    (hf : ∀ a s', Moves (d a) s s' → Shifts (f a) (fun b => e b - d a) s') :
    Shifts (m >>= f) e s := by
  rw [Shifts, wp_bind]
  refine wp_mono hm fun a s' h => wp_mono (hf a s' h) fun b s'' h' => ?_
  have := h.trans h'
  rwa [add_sub_cancel] at this

theorem Shifts.still_bind (hm : Still m) (hf : ∀ a s', Moves 0 s s' → Shifts (f a) e s') :
    Shifts (m >>= f) e s :=
  .bind (hm s) fun a s' h => by simpa only [sub_zero] using hf a s' h

theorem Shifts.congr {d' : α → Slot → ℤ} (h : Shifts m d s) (hd : ∀ a, d a = d' a) :
    Shifts m d' s := by
  rwa [← funext hd]

theorem Shifts.ite {c : Prop} [Decidable c] {m' : Prog State α} (h : c → Shifts m d s)
    (h' : ¬ c → Shifts m' d s) : Shifts (if c then m else m') d s := by
  split_ifs with hc
  exacts [h hc, h' hc]

theorem Shifts.panic {msg : String} : Shifts (Prog.panic msg) d s := by
  rw [Shifts, wp_panic]
  trivial

theorem Still.pure {a : α} : Still (pure a) := fun _ => Shifts.pure rfl

theorem Still.bind (hm : Still m) (hf : ∀ a, Still (f a)) : Still (m >>= f) := fun _ =>
  .still_bind hm fun a s' _ => hf a s'

theorem Still.ite {c : Prop} [Decidable c] {m' : Prog State α} (h : Still m) (h' : Still m') :
    Still (if c then m else m') := fun s => .ite (fun _ => h s) fun _ => h' s

theorem Still.panic {msg : String} : Still (Prog.panic msg : Prog State α) := fun _ => .panic

theorem Still.sleep : Still (Prog.sleep : Prog State α) := fun _ => by
  rw [Shifts, wp_sleep]
  trivial

theorem Still.get : Still (get : Prog State State) := fun _ => by
  rw [Shifts, wp_get]
  exact .refl

theorem Still.modify {g : State → State} (h : ∀ s, (g s).icache = s.icache) :
    Still (modify g) := fun s => by
  rw [Shifts, wp_modify]
  exact .of_same fun k => by rw [h s]; exact ⟨rfl, rfl, rfl⟩

theorem Still.forM {l : List α} {g : α → Prog State PUnit} (h : ∀ a, Still (g a)) :
    Still (forM l g) := fun s => by
  refine wp_forM (fun _ s' => Moves 0 s s') (fun a l s' h' => ?_) (fun _ h => h) .refl
  exact wp_mono (h a s') fun _ _ h'' => by simpa only [add_zero] using h'.trans h''

/-- A search that does nothing until it ends. -/
theorem Shifts.findSomeM? {l : List α} {g : α → Prog State (Option β)} {d : Option β → Slot → ℤ}
    (hd : d none = 0) (h : ∀ a s, Shifts (g a) d s) : Shifts (l.findSomeM? g) d s := by
  refine wp_findSomeM? (fun _ s' => Moves 0 s s') (fun a l s' h' => ?_) (fun _ h' => by rwa [hd])
    .refl
  refine wp_mono (h a s') fun r s'' h'' => ?_
  cases r with
  | none => simpa only [hd, add_zero] using h'.trans h''
  | some b => simpa only [zero_add] using h'.trans h''

end Rules

section Calls

variable {s : State} {k : Slot}

/-! ### Blocks and contents -/

variable {b : UInt32}

theorem still_bread : Still (bread b) := .bind .get fun _ => .pure

theorem still_readsb : Still readsb := .bind still_bread fun _ => .pure

theorem still_logWrite {blk : Block} : Still (logWrite b blk) := .modify fun _ => rfl

theorem still_cprintf {msg : String} : Still (cprintf msg) := .modify fun _ => rfl

theorem still_getInode : Still (getInode k) := .bind .get fun _ => .pure

/-- A change of an entry that keeps its inode and count. -/
theorem still_setInode {f : Inode → Inode} (h : ∀ ip, (f ip).ref = ip.ref ∧ (f ip).dev = ip.dev ∧
    (f ip).inum = ip.inum) : Still (setInode k f) := fun s => by
  rw [Shifts, setInode, wp_modify]
  refine .of_same fun l => ?_
  by_cases hl : l = k
  · rw [hl, setInode_self]; exact h _
  · rw [setInode_of_ne hl]; exact ⟨rfl, rfl, rfl⟩

theorem still_ballocGroup {sb : Superblock} {g : ℕ} : Still (ballocGroup sb g) := by
  refine .bind still_bread fun bp => ?_
  split
  · exact .pure
  · exact .bind still_logWrite fun _ => .bind still_logWrite fun _ => .pure

theorem still_balloc : Still balloc := by
  refine .bind still_readsb fun sb => .bind (fun s => .findSomeM? rfl fun _ s => ?_) fun r => ?_
  · exact still_ballocGroup s
  · split
    · exact .pure
    · exact .bind still_cprintf fun _ => .pure

theorem still_bfree : Still (bfree b) :=
  .bind still_readsb fun _ => .bind still_bread fun _ => .ite still_logWrite .panic

theorem still_storeDinode {i : UInt32} {dn : Dinode} : Still (storeDinode i dn) :=
  .bind .get fun _ => .bind still_bread fun _ => still_logWrite

theorem still_iupdate : Still (iupdate k) := .bind still_getInode fun _ => still_storeDinode

theorem still_addrOrAlloc {i : Fin (NDIRECT + 1)} : Still (addrOrAlloc k i) :=
  .bind still_getInode fun _ => .ite (.bind still_balloc fun _ =>
    .bind (still_setInode fun _ => ⟨rfl, rfl, rfl⟩) fun _ => .pure) .pure

theorem still_entryOrAlloc {ind : UInt32} {bn : ℕ} : Still (entryOrAlloc ind bn) :=
  .bind still_bread fun _ => .ite (.bind still_balloc fun _ => .bind still_bread fun _ =>
    .bind still_logWrite fun _ => .pure) .pure

theorem still_bmap {bn : ℕ} : Still (bmap k bn) := by
  unfold bmap
  split
  · exact still_addrOrAlloc
  · exact .ite (.bind still_addrOrAlloc fun _ => still_entryOrAlloc)
      (.bind still_cprintf fun _ => .pure)

theorem still_readLoop (n tot off : ℕ) : Still (readLoop k n tot off) := by
  induction tot, off using readLoop.induct n with
  | case1 tot off h ih =>
    rw [readLoop, if_pos h]
    exact .bind still_bmap fun _ => .bind still_bread fun _ => .bind ih fun _ => .pure
  | case2 tot off h =>
    rw [readLoop, if_neg h]
    exact .pure

variable {off : UInt32}

variable {n : UInt32}

theorem still_readi : Still (readi k off n) := by
  refine .bind .get fun s => .ite ?_ (.ite .pure (.bind (still_readLoop _ _ _) fun _ => .pure))
  split
  · split
    · exact .pure
    · exact .pure
  · exact .pure

theorem still_writeLoop (src : ℕ → UInt8) (n tot off : ℕ) : Still (writeLoop k src n tot off) := by
  induction tot, off using writeLoop.induct n with
  | case1 tot off h ih =>
    rw [writeLoop, if_pos h]
    exact .bind still_bmap fun _ => .ite .pure (.bind still_bread fun _ =>
      .bind still_logWrite fun _ => ih)
  | case2 tot off h =>
    rw [writeLoop, if_neg h]
    exact .pure

theorem still_writei {src : ℕ → UInt8} : Still (writei k src off n) := by
  refine .bind .get fun s => .ite ?_ (.ite .pure (.ite .pure ?_))
  · split
    · split
      · exact .pure
      · exact .pure
    · exact .pure
  · refine .bind (still_writeLoop _ _ _ _) fun _ => .bind still_getInode fun _ => ?_
    exact .ite (.bind (still_setInode fun _ => ⟨rfl, rfl, rfl⟩) fun _ => .bind still_iupdate
      fun _ => .pure) .pure

theorem still_freeAddr {i : Fin (NDIRECT + 1)} : Still (freeAddr k i) :=
  .bind still_getInode fun _ => .ite (.bind still_bfree fun _ =>
    still_setInode fun _ => ⟨rfl, rfl, rfl⟩) .pure

theorem still_itrunc : Still (itrunc k) := by
  refine .bind (.forM fun _ => still_freeAddr) fun _ => .bind still_getInode fun _ => ?_
  have hend : Still (do setInode k fun ip => { ip with size := 0 }; iupdate k) :=
    .bind (still_setInode fun _ => ⟨rfl, rfl, rfl⟩) fun _ => still_iupdate
  refine .ite (.bind still_bread fun _ => .bind (.forM fun _ => ?_) fun _ =>
    .bind still_freeAddr fun _ => hend) hend
  exact .ite still_bfree .pure

/-! ### Locks and references -/

theorem still_acquiresleep : Still (acquiresleep k) :=
  .bind still_getInode fun _ => .ite .sleep (still_setInode fun _ => ⟨rfl, rfl, rfl⟩)

theorem still_releasesleep : Still (releasesleep k) := still_setInode fun _ => ⟨rfl, rfl, rfl⟩

theorem still_ilock : Still (ilock k) := by
  have hread : Still (do
      if !(← getInode k).valid then
        let dip := (← get).dinode (← getInode k).inum
        setInode k fun ip => { ip with toDinode := dip, valid := true }
        if dip.type = 0 then Prog.panic "ilock: no type") :=
    .bind still_getInode fun _ => .ite (.bind .get fun _ => .bind still_getInode fun _ =>
      .bind (still_setInode fun _ => ⟨rfl, rfl, rfl⟩) fun _ => .ite .panic .pure) .pure
  exact .bind still_getInode fun _ => .ite (.bind .panic fun _ => .bind still_acquiresleep
    fun _ => hread) (.bind still_acquiresleep fun _ => hread)

theorem still_iunlock : Still (iunlock k) :=
  .bind still_getInode fun _ => .ite (.bind .panic fun _ => still_releasesleep) still_releasesleep

/-- A change of the count of an entry, which is free afterwards or was in use. -/
theorem Moves.setRef {f : Inode → Inode} {n : ℤ} (hn : (f (s.icache k)).ref = (s.icache k).ref + n)
    (hid : 0 < (f (s.icache k)).ref → (∀ l ≠ k, 0 < (s.icache l).ref → ¬ (
      (s.icache l).dev = (f (s.icache k)).dev ∧ (s.icache l).inum = (f (s.icache k)).inum))
      ∨ 0 < (s.icache k).ref ∧ (f (s.icache k)).dev = (s.icache k).dev ∧
        (f (s.icache k)).inum = (s.icache k).inum) :
    Moves (Pi.single k n) s (s.setInode k f) where
  ref l := by
    by_cases hl : l = k
    · rw [hl, setInode_self, hn, Pi.single_eq_same]
    · rw [setInode_of_ne hl, Pi.single_eq_of_ne hl, add_zero]
  unique hu := by
    have key : ∀ l ≠ k, 0 < (f (s.icache k)).ref → 0 < (s.icache l).ref →
        (f (s.icache k)).dev = (s.icache l).dev → (f (s.icache k)).inum ≠ (s.icache l).inum := by
      intro l hl hk hl' hd hi
      rcases hid hk with h | ⟨hk', hd', hi'⟩
      · exact h l hl hl' ⟨hd.symm, hi.symm⟩
      · exact hl (hu l k hl' hk' (by rw [← hd, hd']) (by rw [← hi, hi']))
    intro l l' hl hl' hd hi
    by_cases h : l = k <;> by_cases h' : l' = k
    · rw [h, h']
    · rw [h, setInode_self] at hl hd hi
      rw [setInode_of_ne h'] at hl' hd hi
      exact absurd hi (key l' h' hl hl' hd)
    · rw [h', setInode_self] at hl' hd hi
      rw [setInode_of_ne h] at hl hd hi
      exact absurd hi.symm (key l h hl' hl hd.symm)
    · rw [setInode_of_ne h] at hl hd hi
      rw [setInode_of_ne h'] at hl' hd hi
      exact hu l l' hl hl' hd hi

theorem shifts_iget {dev inum : UInt32} : Shifts (iget dev inum) oneRef s := by
  rw [Shifts, iget, wp_bind, wp_get]
  cases hfind : slots.find? _ with
  | some k =>
    have hk := List.find?_some hfind
    rw [decide_eq_true_iff] at hk
    rw [wp_bind, setInode, wp_modify, wp_pure]
    exact .setRef rfl fun _ => .inr ⟨hk.1, rfl, rfl⟩
  | none =>
    dsimp only
    cases hfree : slots.find? _ with
    | none => rw [wp_panic]; trivial
    | some k =>
      have hk := List.find?_some hfree
      rw [decide_eq_true_iff] at hk
      rw [wp_bind, setInode, wp_modify, wp_pure]
      refine .setRef (by rw [hk]; rfl) fun _ => .inl fun l _ hl hid => ?_
      have := List.find?_eq_none.1 hfind l (List.mem_finRange l)
      rw [decide_eq_true_iff] at this
      exact this ⟨hl, hid.1, hid.2⟩

theorem shifts_idup (hk : 0 < (s.icache k).ref) : Shifts (idup k) oneRef s := by
  rw [Shifts, idup, wp_bind, setInode, wp_modify, wp_pure]
  exact .setRef rfl fun _ => .inr ⟨hk, rfl, rfl⟩

variable {type : Int16}

theorem shifts_ialloc {dev : UInt32} : Shifts (ialloc dev type) oneRef s := by
  refine .still_bind .get fun s' s'' _ => ?_
  split
  · exact .still_bind still_storeDinode fun _ _ _ => shifts_iget
  · exact .panic

theorem shifts_iput : Shifts (iput k) (fun _ => - oneRef k) s := by
  refine .still_bind still_acquiresleep fun _ _ _ => .still_bind still_getInode fun ip _ _ => ?_
  have hdrop (s : State) : Shifts (do
      releasesleep k
      setInode k fun ip => { ip with ref := ip.ref - 1 }) (fun _ => - oneRef k) s := by
    refine .still_bind still_releasesleep fun _ s' _ => ?_
    rw [Shifts, setInode, wp_modify, oneRef, ← Pi.single_neg]
    refine .setRef rfl fun h => .inr ⟨?_, rfl, rfl⟩
    dsimp only at h
    omega
  refine .ite (fun _ => ?_) fun _ => hdrop _
  exact .still_bind still_itrunc fun _ _ _ => .still_bind (still_setInode fun _ => ⟨rfl, rfl, rfl⟩)
    fun _ _ _ => .still_bind still_iupdate fun _ _ _ =>
      .still_bind (still_setInode fun _ => ⟨rfl, rfl, rfl⟩) fun _ _ _ => hdrop _

theorem shifts_iunlockput : Shifts (iunlockput k) (fun _ => - oneRef k) s :=
  .still_bind still_iunlock fun _ _ _ => shifts_iput

/-! ### Directories and paths -/

theorem still_readDirent {off : ℕ} {msg : String} : Still (readDirent k off msg) := by
  refine .bind still_readi fun r => ?_
  exact .ite (.bind .panic fun _ => .pure) .pure

variable {name : Buf DIRSIZ}

theorem shifts_dirlookup : Shifts (dirlookup k name) oneRefTo s := by
  have hscan (s : State) : Shifts (do
      (List.range (direntCount (← getInode k).size)).findSomeM? fun j => do
        let de ← readDirent k (16 * j) "dirlookup read"
        if de.inum = 0 then return none
        else if namecmp name de.name = 0 then
          let ip ← iget (← getInode k).dev de.inum.toUInt32
          return some (ip, 16 * j)
        else return none) oneRefTo s := by
    refine .still_bind still_getInode fun _ _ _ => .findSomeM? rfl fun j s => ?_
    refine .still_bind still_readDirent fun de s _ => .ite (fun _ => .pure rfl) fun _ =>
      .ite (fun _ => ?_) fun _ => .pure rfl
    exact .still_bind still_getInode fun _ _ _ => .bind shifts_iget fun _ _ _ =>
      .pure (sub_self _)
  exact .still_bind still_getInode fun _ _ _ => .ite (fun _ => .still_bind .panic fun _ _ _ =>
    hscan _) fun _ => hscan _

theorem still_emptyDirent : Still (emptyDirent k) := by
  refine .bind still_getInode fun _ => .bind (fun s => .findSomeM? rfl fun j s => ?_) fun _ => .pure
  exact Still.bind still_readDirent (fun _ => .pure) s

theorem still_dirlink {inum : UInt32} : Still (dirlink k name inum) := by
  intro s
  refine .bind shifts_dirlookup fun r s' _ => ?_
  rcases r with _ | ⟨ip, off⟩
  · refine .congr (d := fun _ => 0) ?_ fun _ => (sub_zero _).symm
    refine .still_bind still_emptyDirent fun off s _ => .still_bind still_writei fun _ s _ => ?_
    exact .ite (fun _ => .still_bind .panic fun _ _ _ => .pure rfl) fun _ => .pure rfl
  · refine .bind shifts_iput fun _ _ _ => .pure ?_
    rw [oneRefTo, map_some, oneRefOf]
    abel

variable {path : List UInt8}

variable {ip : Slot}

theorem shifts_namexLoop {parent : Bool}
    {s : State} : Shifts (namexLoop parent ip path name) (fun r => oneRefTo r - oneRef ip) s := by
  induction path using names.induct generalizing ip name s with
  | case1 path hskip =>
    rw [namexLoop]
    split
    · refine .ite (fun _ => ?_) fun _ => .pure (sub_self _)
      exact .bind shifts_iput fun _ _ _ => .pure (by simp [oneRefTo, oneRefOf])
    · next h => rw [hskip] at h; cases h
  | case2 path name' rest hskip ih =>
    rw [namexLoop]
    split
    · next h => rw [hskip] at h; cases h
    · next name'' rest' h =>
      obtain ⟨rfl, rfl⟩ := Prod.mk.inj (some.inj (hskip.symm.trans h))
      have hfail (s : State) : Shifts (do
          iunlockput ip
          return none) (fun r : Option (Slot × Buf DIRSIZ) => oneRefTo r - oneRef ip) s :=
        .bind shifts_iunlockput fun _ _ _ => .pure (by simp [oneRefTo, oneRefOf])
      refine .still_bind still_ilock fun _ _ _ => .still_bind still_getInode fun _ _ _ => ?_
      refine .ite (fun _ => hfail _) fun _ => .ite (fun _ => ?_) fun _ => ?_
      · exact .still_bind still_iunlock fun _ _ _ => .pure (sub_self _)
      · refine .bind shifts_dirlookup fun r s' _ => ?_
        rcases r with _ | ⟨next, off⟩
        · exact (hfail s').congr fun _ => (sub_zero _).symm
        · refine .bind shifts_iunlockput fun _ _ _ => ih.congr fun r => ?_
          rw [show oneRefTo (some (next, off)) = oneRef next from rfl]
          abel

variable {cwd : Slot}

/-- The references that a path lookup gives, from a current directory that is held. -/
theorem shifts_namex {parent : Bool}
    (hcwd : 0 < (s.icache cwd).ref) : Shifts (namex cwd path parent) oneRefTo s := by
  exact .ite (fun _ => .bind shifts_iget fun _ _ _ => shifts_namexLoop)
    fun _ => .bind (shifts_idup hcwd) fun _ _ _ => shifts_namexLoop

theorem shifts_namei (hcwd : 0 < (s.icache cwd).ref) : Shifts (namei cwd path) oneRefOf s :=
  .bind (shifts_namex hcwd) fun _ _ _ => .pure (sub_self _)

/-! ### Calls -/

variable {dp : Slot}

theorem still_createDots : Still (createDots dp ip) := by
  have hdotdot : Still (do
      if (← dirlink ip dotdot (← getInode dp).inum) < 0 then Prog.panic "create dots") :=
    .bind still_getInode fun _ => .bind still_dirlink fun _ => .ite .panic .pure
  refine .bind (still_setInode fun _ => ⟨rfl, rfl, rfl⟩) fun _ => .bind still_iupdate fun _ =>
    .bind still_getInode fun _ => .bind still_dirlink fun _ => ?_
  exact .ite (.bind .panic fun _ => hdotdot) hdotdot

theorem shifts_createNew {major minor : Int16} :
    Shifts (createNew dp name type major minor) (fun ip => oneRef ip - oneRef dp) s := by
  refine .still_bind still_getInode fun _ _ _ => .bind shifts_ialloc fun ip _ _ => ?_
  have hput (s : State) : Shifts (do iunlockput dp; return ip)
      (fun ip' => oneRef ip' - oneRef dp - oneRef ip) s :=
    .bind shifts_iunlockput fun _ _ _ => .pure (by abel)
  have hlink (s : State) : Shifts (do
      if (← dirlink dp name (← getInode ip).inum) < 0 then Prog.panic "create: dirlink"
      iunlockput dp
      return ip) (fun ip' => oneRef ip' - oneRef dp - oneRef ip) s :=
    .still_bind still_getInode fun _ _ _ => .still_bind still_dirlink fun _ _ _ =>
      .ite (fun _ => .still_bind .panic fun _ _ _ => hput _) fun _ => hput _
  refine .still_bind still_ilock fun _ _ _ =>
    .still_bind (still_setInode fun _ => ⟨rfl, rfl, rfl⟩) fun _ _ _ =>
    .still_bind still_iupdate fun _ _ _ => .ite (fun _ => ?_) fun _ => hlink _
  exact .still_bind still_createDots fun _ _ _ => hlink _

theorem shifts_create {major minor : Int16}
    (hcwd : 0 < (s.icache cwd).ref) : Shifts (create cwd path type major minor) oneRefOf s := by
  refine .bind (shifts_namex hcwd) fun r s' _ => ?_
  rcases r with _ | ⟨dp, name⟩
  · exact .pure (sub_self _)
  rw [show oneRefTo (some (dp, name)) = oneRef dp from rfl]
  refine .still_bind still_ilock fun _ _ _ => .bind shifts_dirlookup fun r _ _ => ?_
  rcases r with _ | ⟨ip, off⟩
  · refine .bind shifts_createNew fun ip _ _ => .pure ?_
    simp only [oneRefTo, map_none, oneRefOf]
    abel
  · rw [show oneRefTo (some (ip, off)) = oneRef ip from rfl]
    refine .bind shifts_iunlockput fun _ _ _ => .still_bind still_ilock fun _ _ _ =>
      .still_bind still_getInode fun _ _ _ => .ite (fun _ => .pure ?_) fun _ => ?_
    · simp only [oneRefOf]
      abel
    · refine .bind shifts_iunlockput fun _ _ _ => .pure ?_
      simp only [oneRefOf]
      abel

theorem shifts_linkBad : Shifts (linkBad ip) (fun _ => - oneRef ip) s :=
  .still_bind still_ilock fun _ _ _ => .still_bind (still_setInode fun _ => ⟨rfl, rfl, rfl⟩)
    fun _ _ _ => .still_bind still_iupdate fun _ _ _ => .bind shifts_iunlockput fun _ _ _ =>
      .pure (sub_self _)

/-- A program with its log does what it does without. -/
theorem Shifts.inLog {α : Type} {m : Prog State α} {d : α → Slot → ℤ} {l : Log.State}
    (h : Shifts m d s) : Shifts (inLog l m) d s := by
  rw [Shifts, wp_inLog]
  refine wp_mono h fun a s' h' => ?_
  split
  exacts [h', trivial]

theorem Shifts.inOp {α : Type} {m : Prog State α} {d : α → Slot → ℤ} (h : Shifts m d s) :
    Shifts (inOp m) d s := by
  rw [Shifts, wp_inOp]
  exact h.inLog

/-- A reference taken on the way leaves the others held. -/
theorem Moves.pos_of_oneRef {s s' : State} {l : Slot} (h : Moves (oneRef l) s s')
    (hk : 0 < (s.icache k).ref) : 0 < (s'.icache k).ref := by
  rw [h.ref, oneRef]
  by_cases hkl : k = l
  · rw [hkl, Pi.single_eq_same]
    rw [hkl] at hk
    omega
  · rwa [Pi.single_eq_of_ne hkl, add_zero]

theorem Moves.pos {s s' : State} (h : Moves 0 s s') (hk : 0 < (s.icache k).ref) :
    0 < (s'.icache k).ref := by
  rwa [h.ref, Pi.zero_apply, add_zero]

theorem shifts_sysLink {old new : List UInt8} (hcwd : 0 < (s.icache cwd).ref) :
    Shifts (sysLink cwd old new) (fun _ => 0) s := by
  refine .inOp (.bind (shifts_namei hcwd) fun r s1 h1 => ?_)
  rcases r with _ | ip
  · exact .pure (sub_self _)
  have hcwd1 := h1.pos_of_oneRef hcwd
  have hbad (s : State) : Shifts (linkBad ip) (fun _ => 0 - oneRef ip) s :=
    shifts_linkBad.congr fun _ => (zero_sub _).symm
  refine .still_bind still_ilock fun _ s2 h2 => .still_bind still_getInode fun _ s3 h3 => ?_
  refine .ite (fun _ => ?_) fun _ => ?_
  · exact .bind shifts_iunlockput fun _ _ _ => .pure (by simp [oneRefOf])
  refine .still_bind (still_setInode fun _ => ⟨rfl, rfl, rfl⟩) fun _ s4 h4 =>
    .still_bind still_iupdate fun _ s5 h5 => .still_bind still_iunlock fun _ s6 h6 => ?_
  have hcwd6 := h6.pos (h5.pos (h4.pos (h3.pos (h2.pos hcwd1))))
  refine .bind (shifts_namex hcwd6) fun r s7 _ => ?_
  rcases r with _ | ⟨dp, name⟩
  · exact (hbad s7).congr fun _ => (sub_zero _).symm
  have hput (s : State) : Shifts (do iunlockput dp; linkBad ip)
      (fun _ => 0 - oneRef ip - oneRef dp) s :=
    .bind shifts_iunlockput fun _ s' _ => (hbad s').congr fun _ => by abel
  refine .still_bind still_ilock fun _ _ _ => .still_bind still_getInode fun _ _ _ =>
    .still_bind still_getInode fun _ _ _ => .ite (fun _ => hput _) fun _ => ?_
  refine .still_bind still_getInode fun _ _ _ => .still_bind still_dirlink fun _ _ _ =>
    .ite (fun _ => hput _) fun _ => ?_
  refine .bind shifts_iunlockput fun _ _ _ => .bind shifts_iput fun _ _ _ => .pure ?_
  simp only [oneRefTo, map_some, oneRefOf]
  abel

theorem still_isdirempty : Still (isdirempty k) := by
  refine .bind still_getInode fun _ => .bind (fun s => .findSomeM? rfl fun j s => ?_) fun _ => .pure
  exact Still.bind still_readDirent (fun _ => .pure) s

theorem still_removable : Still (removable k) :=
  .bind still_getInode fun _ => .ite still_isdirempty .pure

theorem shifts_unlinkEntry {off : ℕ} :
    Shifts (unlinkEntry dp ip off) (fun _ => - oneRef dp - oneRef ip) s := by
  have hend (s : State) : Shifts (do
      iunlockput dp
      setInode ip fun i => { i with nlink := i.nlink - 1 }
      iupdate ip
      iunlockput ip
      return 0) (fun _ : ℤ => - oneRef dp - oneRef ip) s := by
    refine .bind shifts_iunlockput fun _ _ _ =>
      .still_bind (still_setInode fun _ => ⟨rfl, rfl, rfl⟩) fun _ _ _ =>
      .still_bind still_iupdate fun _ _ _ => .bind shifts_iunlockput fun _ _ _ => .pure ?_
    abel
  have hdir (s : State) : Shifts (do
      if (← getInode ip).type = T_DIR then
        setInode dp fun i => { i with nlink := i.nlink - 1 }
        iupdate dp
      iunlockput dp
      setInode ip fun i => { i with nlink := i.nlink - 1 }
      iupdate ip
      iunlockput ip
      return 0) (fun _ : ℤ => - oneRef dp - oneRef ip) s :=
    .still_bind still_getInode fun _ _ _ => .ite (fun _ =>
      .still_bind (still_setInode fun _ => ⟨rfl, rfl, rfl⟩) fun _ _ _ =>
      .still_bind still_iupdate fun _ _ _ => hend _) fun _ => hend _
  exact .still_bind still_writei fun _ _ _ => .ite (fun _ => .still_bind .panic fun _ _ _ => hdir _)
    fun _ => hdir _

variable (hcwd : 0 < (s.icache cwd).ref)

include hcwd

theorem shifts_sysUnlink : Shifts (sysUnlink cwd path) (fun _ => 0) s := by
  refine .inOp (.bind (shifts_namex hcwd) fun r s1 _ => ?_)
  rcases r with _ | ⟨dp, name⟩
  · exact .pure (sub_self _)
  rw [show oneRefTo (some (dp, name)) = oneRef dp from rfl]
  have hbad (s : State) : Shifts (do iunlockput dp; return -1) (fun _ : ℤ => 0 - oneRef dp) s :=
    .bind shifts_iunlockput fun _ _ _ => .pure (by abel)
  refine .still_bind still_ilock fun _ _ _ => .ite (fun _ => hbad _) fun _ => ?_
  refine .bind shifts_dirlookup fun r s2 _ => ?_
  rcases r with _ | ⟨ip, off⟩
  · exact (hbad s2).congr fun _ => (sub_zero _).symm
  rw [show oneRefTo (some (ip, off)) = oneRef ip from rfl]
  refine .still_bind still_ilock fun _ _ _ => .still_bind still_getInode fun _ _ _ =>
    .ite (fun _ => .panic) fun _ => .still_bind still_removable fun _ _ _ => ?_
  refine .ite (fun _ => ?_) fun _ => shifts_unlinkEntry.congr fun _ => by abel
  exact .bind shifts_iunlockput fun _ _ _ => .bind shifts_iunlockput fun _ _ _ => .pure (by abel)

theorem shifts_sysMkdir : Shifts (sysMkdir cwd path) (fun _ => 0) s := by
  refine .inOp (.bind (shifts_create hcwd) fun r _ _ => ?_)
  cases r with
  | none => exact .pure (sub_self _)
  | some ip => exact .bind shifts_iunlockput fun _ _ _ => .pure (by simp [oneRefOf])

theorem shifts_sysMknod {major minor : Int32} :
    Shifts (sysMknod cwd path major minor) (fun _ => 0) s := by
  refine .inOp (.bind (shifts_create hcwd) fun r _ _ => ?_)
  cases r with
  | none => exact .pure (sub_self _)
  | some ip => exact .bind shifts_iunlockput fun _ _ _ => .pure (by simp [oneRefOf])

theorem shifts_openInode {omode : UInt32} : Shifts (openInode cwd path omode) oneRefOf s := by
  refine .ite (fun _ => shifts_create hcwd) fun _ => .bind (shifts_namei hcwd) fun r _ _ => ?_
  cases r with
  | none => exact .pure (sub_self _)
  | some ip =>
    refine .still_bind still_ilock fun _ _ _ => .still_bind still_getInode fun _ _ _ =>
      .ite (fun _ => ?_) fun _ => .pure (sub_self _)
    exact .bind shifts_iunlockput fun _ _ _ => .pure (by simp [oneRefOf])

/-- The references of a current directory that may have changed. -/
theorem shifts_chdirInode :
    Shifts (chdirInode cwd path) (fun r => r.elim 0 fun ip => oneRef ip - oneRef cwd) s := by
  refine .inOp (.bind (shifts_namei hcwd) fun r _ _ => ?_)
  cases r with
  | none => exact .pure (sub_self _)
  | some ip =>
    refine .still_bind still_ilock fun _ _ _ => .still_bind still_getInode fun _ _ _ =>
      .ite (fun _ => ?_) fun _ => ?_
    · exact .bind shifts_iunlockput fun _ _ _ => .pure (by simp [oneRefOf])
    · refine .still_bind still_iunlock fun _ _ _ => .bind shifts_iput fun _ _ _ => .pure ?_
      simp only [Option.elim, oneRefOf]
      abel

theorem shifts_execInode {reads : List (UInt32 × UInt32)} :
    Shifts (execInode cwd path reads) (fun _ => 0) s := by
  refine .inOp (.bind (shifts_namei hcwd) fun r _ _ => ?_)
  cases r with
  | none => exact .pure (sub_self _)
  | some ip =>
    refine .still_bind still_ilock fun _ _ _ =>
      .still_bind (.forM fun _ => .bind still_readi fun _ => .pure) fun _ _ _ => ?_
    exact .bind shifts_iunlockput fun _ _ _ => .pure (by simp [oneRefOf])

omit hcwd

/-! ### Open files -/

theorem still_fileread {f : File} {n : ℤ} : Still (fileread f n) := by
  refine .ite .pure ?_
  split
  · exact .pure
  · refine .bind (.bind .get fun _ => fun _ => .inLog ?_) fun _ => .pure
    exact Still.bind still_ilock (fun _ => .bind still_readi fun _ => .bind still_iunlock fun _ =>
      .pure) _
  · exact .panic

theorem still_writeOp {src : ℕ → UInt8} : Still (writeOp k src off n) := fun _ =>
  .inOp (Still.bind still_ilock (fun _ => .bind still_writei fun _ => .bind still_iunlock fun _ =>
    .pure) _)

theorem still_filewriteLoop (addr : ℕ → UInt8) (n i : ℕ) (f : File) :
    Still (filewriteLoop addr n i f) := by
  induction h : n - i using Nat.strong_induction_on generalizing i f with
  | _ d ih =>
    rw [filewriteLoop]
    by_cases hi : i < n
    · rw [if_pos hi]
      have hlt : n - (i + min (n - i) maxWrite) < d := by
        rw [maxWrite_eq]
        omega
      exact .bind still_writeOp fun r => .ite .pure (.ite .panic (ih _ hlt _ _ rfl))
    · rw [if_neg hi]
      exact .pure

theorem still_filewrite {f : File} {addr : ℕ → UInt8} {n : ℤ} : Still (filewrite f addr n) := by
  refine .ite .pure ?_
  split
  · exact .pure
  · exact .bind (still_filewriteLoop _ _ _ _) fun _ => .pure
  · exact .panic

end Calls

end Xv6.Fs
