/-
# The reference counts of inodes balance

Whenever no call is in progress, the count of an entry of the inode cache is the
number of open files on it plus the number of processes whose current directory it
is (`inode_refs`), whatever the calls before have returned.

Inside a call the two sides differ by the references that the call holds itself
(`Off`): every function of the file system moves the counts by what it returns
(`Fs.Shifts`), and every store into the file table or a process moves the other side.
-/

import Xv6.Fs.Counts
import Xv6.Lib.Counting
import Xv6.Sys.Calls

namespace Xv6.Sys

open Except Finset Function Lib Option
open Fs (Shifts Still oneRef oneRefOf)
open Ftable (Slot Fd Entry Life filealloc fdalloc argfd)

variable {s s' : State} {c : Fs.Slot → ℤ} {p : Slot} {f : Entry} {k : Fs.Slot}
  {Q : Unit → State → Prop} {path : List UInt8} {fd : ℤ}

/-! ### What is counted -/

/-- The reference that an entry of the file table holds. -/
def fileRef (x : Ftable.File) : Fs.Slot → ℤ :=
  if 0 < x.ref ∧ x.type = .inode then oneRef x.ip else 0

/-- The reference that a process holds. -/
def procRef (P : Proc) : Fs.Slot → ℤ := if P.life = .live then oneRef P.cwd else 0

/-- The references of the file table and of the processes. -/
@[irreducible] def fileRefs (t : Entry → Ftable.File) : Fs.Slot → ℤ := ∑ f, fileRef (t f)

@[inherit_doc fileRefs, irreducible] def procRefs (t : Slot → Proc) : Fs.Slot → ℤ :=
  ∑ p, procRef (t p)

/-- The counts exceed what the files and the processes hold by `c`. -/
structure Off (c : Fs.Slot → ℤ) (s : State) : Prop where
  ref : ∀ k, (s.fs.icache k).ref = fileRefs s.file k + procRefs s.proc k + c k
  unique : s.fs.Unique
  free : ∀ f, (s.file f).ref = 0 → (s.file f).type = .none

theorem fileRefs_update (t : Entry → Ftable.File) (f : Entry) (x : Ftable.File) :
    fileRefs (update t f x) = fileRefs t - fileRef (t f) + fileRef x := by
  rw [fileRefs, fileRefs, sum_update_eq]

theorem procRefs_update (t : Slot → Proc) (p : Slot) (P : Proc) :
    procRefs (update t p P) = procRefs t - procRef (t p) + procRef P := by
  rw [procRefs, procRefs, sum_update_eq]

theorem oneRef_nonneg (k l : Fs.Slot) : 0 ≤ oneRef k l := by
  rw [oneRef, Pi.single_apply]
  split <;> omega

theorem fileRefs_nonneg (t : Entry → Ftable.File) (k : Fs.Slot) : 0 ≤ fileRefs t k := by
  rw [fileRefs, Finset.sum_apply]
  refine sum_nonneg fun f _ => ?_
  rw [fileRef]
  split
  exacts [oneRef_nonneg _ _, le_rfl]

theorem procRef_nonneg (P : Proc) (k : Fs.Slot) : 0 ≤ procRef P k := by
  rw [procRef]
  split
  exacts [oneRef_nonneg _ _, le_rfl]

theorem procRefs_cwd {t : Slot → Proc} (hp : (t p).life = .live) : 1 ≤ procRefs t (t p).cwd := by
  rw [procRefs, Finset.sum_apply]
  have h : procRef (t p) (t p).cwd = 1 := by rw [procRef, if_pos hp, oneRef, Pi.single_eq_same]
  exact h ▸ single_le_sum (fun q _ => procRef_nonneg (t q) (t p).cwd) (mem_univ p)

/-- The current directory of a process is held. -/
theorem Off.cwd_pos (h : Off c s) (hc : 0 ≤ c (s.proc p).cwd) (hp : (s.proc p).life = .live) :
    0 < (s.fs.icache (s.proc p).cwd).ref := by
  have h1 := fileRefs_nonneg s.file (s.proc p).cwd
  have h2 := procRefs_cwd hp
  rw [h.ref]
  omega

/-! ### Programs -/

theorem wp_onFs {α : Type} {m : Prog Fs.State α} {E : Fail → Prop} {Q : α → State → Prop} :
    wp (onFs m) E Q s ↔ wp m E (fun a fs => Q a { s with fs := fs }) s.fs := by
  unfold wp onFs
  cases m s.fs <;> rfl

theorem wp_orPanic {α : Type} {r : Except String α} {Q : α → State → Prop}
    (h : ∀ a, r = .ok a → Q a s) : wp (orPanic r) (fun _ => True) Q s := by
  cases r with
  | ok a => exact wp_pure.2 (h a rfl)
  | error msg => exact wp_panic.2 trivial

/-- A program of the file system moves the counts. -/
theorem Off.onFs {α : Type} {m : Prog Fs.State α} {d : α → Fs.Slot → ℤ} (h : Off c s)
    (hm : Shifts m d s.fs) {Q : α → State → Prop}
    (hQ : ∀ a fs, Off (c + d a) { s with fs := fs } → Q a { s with fs := fs }) :
    wp (onFs m) (fun _ => True) Q s := by
  rw [wp_onFs]
  refine wp_mono hm fun a fs hmove => hQ a fs ⟨fun k => ?_, hmove.unique h.unique, h.free⟩
  rw [hmove.ref, h.ref, Pi.add_apply, add_assoc]

theorem Off.setProc (h : Off c s) {P : Proc} {d : Fs.Slot → ℤ}
    (hP : procRef P = procRef (s.proc p) + d) :
    Off (c - d) { s with proc := update s.proc p P } := by
  refine ⟨fun k => ?_, h.unique, h.free⟩
  rw [h.ref, procRefs_update, hP]
  simp only [Pi.add_apply, Pi.sub_apply]
  omega

theorem Off.setFile (h : Off c s) {x : Ftable.File} {d : Fs.Slot → ℤ}
    (hx : fileRef x = fileRef (s.file f) + d) (hfree : x.ref = 0 → x.type = .none) :
    Off (c - d) { s with file := update s.file f x } := by
  refine ⟨fun k => ?_, h.unique, fun f' => ?_⟩
  · rw [h.ref, fileRefs_update, hx]
    simp only [Pi.add_apply, Pi.sub_apply]
    omega
  · change (update s.file f x f').ref = 0 → (update s.file f x f').type = .none
    by_cases hf : f' = f
    · rw [hf, update_self]; exact hfree
    · rw [update_of_ne hf]; exact h.free f'

/-- A store into an entry that keeps its inode and its use. -/
theorem Off.setFile_same (h : Off c s) {x : Ftable.File} (hip : x.ip = (s.file f).ip)
    (htype : x.type = (s.file f).type) (href : 0 < x.ref ↔ 0 < (s.file f).ref) :
    Off c { s with file := update s.file f x } := by
  have := h.setFile (f := f) (x := x) (d := 0) (by simp only [fileRef, href, htype, hip, add_zero])
    fun h0 => htype ▸ h.free f (by omega)
  rwa [sub_zero] at this

theorem Off.filedup (h : Off c s)
    (hQ : ∀ t, Off c { s with file := t } → Q () { s with file := t }) :
    wp (filedup f) (fun _ => True) Q s := by
  rw [Sys.filedup, wp_bind, wp_get, wp_bind]
  refine wp_orPanic fun t ht => ?_
  rw [Sys.setFile, wp_modify]
  unfold Ftable.filedup at ht
  split_ifs at ht with href
  cases ht
  exact hQ _ (h.setFile_same rfl rfl ⟨fun _ => by omega, fun _ => Nat.succ_pos _⟩)

/-- **`fileclose`** releases the inode of the last reference. -/
theorem Off.fileclose (h : Off c s)
    (hQ : ∀ fs t, Off c { s with fs := fs, file := t } → Q () { s with fs := fs, file := t }) :
    wp (fileclose f) (fun _ => True) Q s := by
  rw [Sys.fileclose, wp_bind, wp_get, wp_bind]
  refine wp_orPanic fun r hr => ?_
  rw [wp_bind, Sys.setFile, wp_modify]
  unfold Ftable.fileclose at hr
  split_ifs at hr with href hlast
  · cases hr
    exact wp_pure.2 (hQ s.fs _ (h.setFile_same rfl rfl ⟨fun _ => by omega, fun _ => hlast⟩))
  · cases hr
    have hpos : 0 < (s.file f).ref := by omega
    by_cases htype : (s.file f).type = .inode
    · have h' := h.setFile (f := f) (x := { s.file f with ref := 0, type := .none })
        (d := - oneRef (s.file f).ip) (by simp [fileRef, hpos, htype]) fun _ => rfl
      dsimp only
      split
      · refine h'.onFs (Shifts.inOp Fs.shifts_iput) fun _ fs hoff => hQ fs _ ?_
        simpa using hoff
      · next hne => exact absurd htype hne
    · have h' := h.setFile (f := f) (x := { s.file f with ref := 0, type := .none })
        (d := 0) (by simp [fileRef, htype]) fun _ => rfl
      rw [sub_zero] at h'
      dsimp only
      split
      · next hin => exact absurd hin htype
      · exact wp_pure.2 (hQ s.fs _ h')

theorem wp_inOp {α : Type} {m : Prog State α} {Q : α → State → Prop}
    (h : wp m (fun _ => True) Q s) : wp (inOp m) (fun _ => True) Q s := by
  rw [inOp, wp_bind, wp_get, wp_bind]
  refine wp_mono h fun a s' hQ => ?_
  rw [wp_bind, wp_get]
  split
  exacts [wp_pure.2 hQ, wp_panic.2 trivial]

theorem Off.setFd (h : Off c s) {g : Proc → Proc} (hg : procRef (g (s.proc p)) = procRef (s.proc p))
    (hQ : ∀ P, Off c { s with proc := update s.proc p P } →
      Q () { s with proc := update s.proc p P }) :
    wp (Sys.setProc p g) (fun _ => True) Q s := by
  rw [Sys.setProc, wp_modify]
  have := h.setProc (p := p) (d := 0) (by rw [hg, add_zero])
  rw [sub_zero] at this
  exact hQ _ this

theorem Off.setOff (h : Off c s) {off : UInt32}
    (hQ : ∀ s', Off c s' → Q () s') : wp (setOff f off) (fun _ => True) Q s := by
  rw [Sys.setOff, wp_bind, wp_get, Sys.setFile, wp_modify]
  exact hQ _ (h.setFile_same rfl rfl Iff.rfl)

/-- `filealloc` gives an entry that holds nothing. -/
theorem Off.filealloc (h : Off c s) {t : Entry → Ftable.File}
    (ha : filealloc s.file = some (f, t)) :
    Off c { s with file := t } ∧ (t f).ref = 1 ∧ (t f).type = .none := by
  unfold Ftable.filealloc at ha
  rw [map_eq_some_iff] at ha
  obtain ⟨f', hfind, heq⟩ := ha
  obtain ⟨rfl, rfl⟩ := Prod.mk.inj heq
  have hf := List.find?_some hfind
  rw [decide_eq_true_iff] at hf
  have htype := h.free f' hf
  have h' := h.setFile (f := f') (x := { s.file f' with ref := 1 }) (d := 0)
    (by simp [fileRef, htype]) fun h0 => absurd h0 one_ne_zero
  rw [sub_zero] at h'
  refine ⟨h', ?_⟩
  rw [update_self]
  exact ⟨rfl, htype⟩

/-! ### Calls -/

/-- The counts after `filealloc` and `fdalloc` of `sys_open`. -/
theorem Off.openFd {ip : Fs.Slot} (h : Off (oneRef ip) s) : wp (openFd p ip) (fun _ => True)
    (fun r s' => match r with
      | none => Off 0 s'
      | some (f, _) => Off (oneRef ip) s' ∧ (s'.file f).ref = 1 ∧ (s'.file f).type = .none) s := by
  rw [Sys.openFd, wp_bind, wp_get]
  cases ha : Ftable.filealloc s.file with
  | none =>
    rw [wp_bind]
    refine h.onFs Fs.shifts_iunlockput fun _ fs h' => wp_pure.2 ?_
    simpa using h'
  | some r =>
    obtain ⟨f, t⟩ := r
    obtain ⟨h', href, htype⟩ := h.filealloc ha
    simp only [wp_bind, Sys.setFile, wp_modify, wp_get]
    cases Ftable.fdalloc (s.proc p).ofile f with
    | none =>
      simp only [wp_bind]
      refine h'.fileclose fun fs t h'' => h''.onFs Fs.shifts_iunlockput fun _ fs h3 =>
        wp_pure.2 ?_
      simpa using h3
    | some r =>
      simp only [wp_bind]
      refine h'.setFd rfl fun P h'' => h''.onFs (Fs.still_iunlock _) fun _ fs h3 => wp_pure.2 ?_
      exact ⟨by simpa using h3, href, htype⟩

variable (h : Off 0 s)

include h

theorem Off.sysOpen (hp : (s.proc p).life = .live)
    {omode : UInt32} : wp (sysOpen p path omode) (fun _ => True) (fun _ s' => Off 0 s') s := by
  rw [Sys.sysOpen, wp_bind]
  refine wp_inOp ?_
  rw [wp_bind, wp_get, wp_bind]
  refine h.onFs (Fs.shifts_openInode (h.cwd_pos le_rfl hp)) fun r fs h' => ?_
  rw [zero_add] at h'
  cases r with
  | none => exact wp_pure.2 (wp_pure.2 h')
  | some ip =>
    rw [wp_bind]
    refine wp_mono (Off.openFd h') fun r s' h'' => ?_
    cases r with
    | none => exact wp_pure.2 (wp_pure.2 h'')
    | some r =>
      obtain ⟨hoff, href, htype⟩ := h''
      refine wp_pure.2 ?_
      rw [wp_bind, wp_get, wp_bind, Sys.setFile, wp_modify, wp_pure]
      have := hoff.setFile (f := r.1) (x := { s'.file r.1 with
          type := .inode, ip := ip, off := 0, readable := omode &&& O_WRONLY = 0
          writable := omode &&& O_WRONLY ≠ 0 ∨ omode &&& O_RDWR ≠ 0 }) (d := oneRef ip)
        (by simp [fileRef, href, htype]) fun h0 => by rw [href] at h0; cases h0
      rwa [sub_self] at this

theorem Off.sysClose : wp (sysClose p fd) (fun _ => True) (fun _ s' => Off 0 s') s := by
  rw [Sys.sysClose, wp_bind, wp_get]
  dsimp only
  cases argfd (s.proc p).ofile fd with
  | none => exact wp_pure.2 h
  | some r =>
    simp only [wp_bind]
    exact h.setFd rfl fun P h' => h'.fileclose fun _ _ h'' => wp_pure.2 h''

theorem Off.sysDup : wp (sysDup p fd) (fun _ => True) (fun _ s' => Off 0 s') s := by
  rw [Sys.sysDup, wp_bind, wp_get]
  dsimp only
  cases argfd (s.proc p).ofile fd with
  | none => exact wp_pure.2 h
  | some r =>
    dsimp only
    cases fdalloc (s.proc p).ofile r.2 with
    | none => exact wp_pure.2 h
    | some r' =>
      simp only [wp_bind]
      exact h.setFd rfl fun P h' => h'.filedup fun _ h'' => wp_pure.2 h''

theorem Off.sysRead {n : ℤ} {pipe : Fs.Pipe} :
    wp (sysRead p fd n pipe) (fun _ => True) (fun _ s' => Off 0 s') s := by
  rw [Sys.sysRead, wp_bind, wp_get]
  cases argfd (s.proc p).ofile fd with
  | none => exact wp_pure.2 h
  | some r =>
    simp only [wp_bind]
    refine h.onFs (Fs.still_fileread _) fun _ fs h' => ?_
    rw [zero_add] at h'
    exact h'.setOff fun _ h'' => wp_pure.2 h''

theorem Off.sysWrite {n : ℤ} {addr : ℕ → UInt8} {pipe : Fs.Pipe} :
    wp (sysWrite p fd addr n pipe) (fun _ => True) (fun _ s' => Off 0 s') s := by
  rw [Sys.sysWrite, wp_bind, wp_get]
  cases argfd (s.proc p).ofile fd with
  | none => exact wp_pure.2 h
  | some r =>
    simp only [wp_bind]
    refine h.onFs (Fs.still_filewrite _) fun _ fs h' => ?_
    rw [zero_add] at h'
    exact h'.setOff fun _ h'' => wp_pure.2 h''

variable (hp : (s.proc p).life = .live)

include hp

theorem Off.sysChdir : wp (sysChdir p path) (fun _ => True) (fun _ s' => Off 0 s') s := by
  rw [Sys.sysChdir, wp_bind, wp_get, wp_bind]
  refine h.onFs (Fs.shifts_chdirInode (h.cwd_pos le_rfl hp)) fun r fs h' => ?_
  rw [zero_add] at h'
  cases r with
  | none => exact wp_pure.2 h'
  | some ip =>
    rw [wp_bind, Sys.setProc, wp_modify, wp_pure]
    have := h'.setProc (p := p) (P := { s.proc p with cwd := ip })
      (d := oneRef ip - oneRef (s.proc p).cwd) (by simp [procRef, hp])
    rwa [elim_some, sub_self] at this

theorem Off.exec {reads : List (UInt32 × UInt32)} {ok : Bool} :
    wp (exec p path reads ok) (fun _ => True) (fun _ s' => Off 0 s') s := by
  rw [Sys.exec, wp_bind, wp_get, wp_bind]
  refine h.onFs (Fs.shifts_execInode (h.cwd_pos le_rfl hp)) fun r fs h' => wp_pure.2 ?_
  rwa [zero_add] at h'

theorem Off.fork {ok : Bool} : wp (fork p ok) (fun _ => True) (fun _ s' => Off 0 s') s := by
  rw [Sys.fork, wp_bind, wp_get]
  cases ha : allocproc s with
  | none => exact wp_pure.2 h
  | some np =>
    have hnp := List.find?_some ha
    rw [decide_eq_true_iff] at hnp
    dsimp only
    rw [wp_ite]
    refine ⟨fun _ => wp_pure.2 h, fun _ => ?_⟩
    rw [wp_bind]
    refine wp_forM (fun _ s' => Off 0 s' ∧ s'.proc = s.proc) (fun fd _ s' h' => ?_)
      (fun s' h' => ?_)
      ⟨h, rfl⟩
    · cases (s.proc p).ofile fd with
      | none => exact wp_pure.2 h'
      | some f => exact h'.1.filedup fun _ h'' => ⟨h'', h'.2⟩
    · obtain ⟨h', hproc⟩ := h'
      rw [wp_bind]
      have hpos := h'.cwd_pos (p := p) le_rfl (hproc ▸ hp)
      rw [hproc] at hpos
      refine h'.onFs (Fs.shifts_idup hpos) fun cwd fs h'' => ?_
      rw [zero_add] at h''
      rw [wp_bind, Sys.setProc, wp_modify, wp_pure]
      have := h''.setProc (p := np) (P := ⟨.live, cwd, (s.proc p).ofile⟩) (d := oneRef cwd)
        (by simp [procRef, hproc, hnp])
      rwa [sub_self] at this

theorem Off.exit : wp (exit p) (fun _ => True) (fun _ s' => Off 0 s') s := by
  rw [Sys.exit, wp_ite]
  refine ⟨fun _ => wp_panic.2 trivial, fun _ => ?_⟩
  rw [wp_bind]
  refine wp_forM (fun _ s' => Off 0 s' ∧ (s'.proc p).life = .live) (fun fd _ s' h' => ?_)
    (fun s' h' => ?_) ⟨h, hp⟩
  · rw [wp_bind, wp_get]
    cases (s'.proc p).ofile fd with
    | none => exact wp_pure.2 h'
    | some f =>
      rw [wp_bind]
      refine h'.1.fileclose fun fs t h'' => ?_
      rw [Sys.setProc, wp_modify]
      have := h''.setProc (p := p) (d := 0)
        (P := { s'.proc p with ofile := update (s'.proc p).ofile fd none })
        (by rw [add_zero]; rfl)
      rw [sub_zero] at this
      refine ⟨this, ?_⟩
      change (update s'.proc p _ p).life = .live
      rw [update_self]
      exact h'.2
  · obtain ⟨h', hp'⟩ := h'
    rw [wp_bind, wp_get, wp_bind]
    refine h'.onFs (Shifts.inOp Fs.shifts_iput) fun _ fs h'' => ?_
    rw [zero_add] at h''
    rw [wp_bind, Sys.setProc, wp_modify, wp_pure]
    have := h''.setProc (p := p) (P := { s'.proc p with life := .zombie })
      (d := - oneRef (s'.proc p).cwd) (by simp [procRef, hp'])
    rwa [sub_self] at this

omit hp

theorem Off.wait {z : Slot} : wp (wait z) (fun _ => True) (fun _ s' => Off 0 s') s := by
  rw [Sys.wait, wp_bind, wp_get, wp_ite]
  refine ⟨fun hz => ?_, fun _ => wp_pure.2 h⟩
  rw [wp_bind]
  exact h.setFd (by simp [procRef, hz]) fun _ h' => wp_pure.2 h'

/-- A call of the file system that keeps no reference. -/
theorem Off.onFs_zero {m : Prog Fs.State ℤ} (hm : Shifts m (fun _ => 0) s.fs) :
    wp (Sys.onFs m) (fun _ => True) (fun _ s' => Off 0 s') s :=
  h.onFs hm fun _ _ h' => by rwa [zero_add] at h'

/-- **Every call leaves the counts balanced**, whatever it returns. -/
theorem Off.call (hp : (s.proc p).life = .live) (a : Call) :
    wp (call p a) (fun _ => True) (fun _ s' => Off 0 s') s := by
  have hcwd := h.cwd_pos le_rfl hp
  cases a with
  | «open» path omode => exact h.sysOpen hp
  | close fd => exact h.sysClose
  | dup fd => exact h.sysDup
  | read fd n pipe => exact h.sysRead
  | write fd addr n pipe => exact h.sysWrite
  | fork ok => exact h.fork hp
  | exec path reads ok => exact h.exec hp
  | exit => exact h.exit hp
  | wait z => exact h.wait
  | chdir path => exact h.sysChdir hp
  | mkdir path => exact wp_bind.2 (wp_get.2 (h.onFs_zero (Fs.shifts_sysMkdir hcwd)))
  | mknod path major minor => exact wp_bind.2 (wp_get.2 (h.onFs_zero (Fs.shifts_sysMknod hcwd)))
  | link old new => exact wp_bind.2 (wp_get.2 (h.onFs_zero (Fs.shifts_sysLink hcwd)))
  | unlink path => exact wp_bind.2 (wp_get.2 (h.onFs_zero (Fs.shifts_sysUnlink hcwd)))

theorem Off.step {a : Slot × Call} (hstep : s.step a = some (.ok s')) : Off 0 s' := by
  unfold State.step at hstep
  split_ifs at hstep with hp
  have hstep := some.inj hstep
  cases hc : Sys.call a.1 a.2 s with
  | error e => rw [hc] at hstep; cases hstep
  | ok r =>
    obtain ⟨v, s''⟩ := r
    rw [hc] at hstep
    cases hstep
    exact post_of_wp (Q := fun _ s' => Off 0 s') (h.call hp a.2) hc

omit h

/-- The counts are balanced when the first process starts. -/
theorem Off.boot {disk : Disk} {devsw : Fin NDEV → Fs.Devsw} (h : boot disk devsw = .ok s) :
    Off 0 s := by
  unfold Sys.boot at h
  dsimp only at h
  cases hget : Fs.iget ROOTDEV ROOTINO
      ⟨disk, Fs.Superblock.ofBlock (disk 1), bootCache, devsw, [], []⟩ with
  | error e => rw [hget] at h; cases h
  | ok r =>
    obtain ⟨cwd, fs⟩ := r
    rw [hget] at h
    cases h
    have hwp : Shifts (Fs.iget ROOTDEV ROOTINO) oneRef
        ⟨disk, Fs.Superblock.ofBlock (disk 1), bootCache, devsw, [], []⟩ := Fs.shifts_iget
    have hmove := post_of_wp hwp hget
    refine ⟨fun k => ?_, hmove.unique fun k l hk => absurd hk (lt_irrefl 0), fun _ _ => rfl⟩
    have hfile : fileRefs bootFile = 0 := by
      rw [fileRefs]
      exact sum_eq_zero fun f _ => rfl
    have hproc : procRefs (fun p => (⟨if p = 0 then .live else .unused, cwd, fun _ => none⟩ : Proc))
        = oneRef cwd := by
      rw [procRefs, sum_eq_single 0 (fun p _ hp => ?_) fun h => absurd (mem_univ _) h]
      · rw [procRef, if_pos (if_pos rfl)]
      · rw [procRef, if_neg (by rw [if_neg hp]; exact Life.noConfusion)]
    rw [hmove.ref, hfile, hproc]
    simp [bootCache]

/-! ### The counts -/

theorem fileRefs_eq_card (t : Entry → Ftable.File) (k : Fs.Slot) : fileRefs t k =
    (univ.filter fun f => 0 < (t f).ref ∧ (t f).type = .inode ∧ (t f).ip = k).card := by
  rw [fileRefs, Finset.sum_apply, card_filter, Nat.cast_sum]
  refine sum_congr rfl fun f _ => ?_
  rw [fileRef]
  split_ifs with h1 h2 h2
  · rw [oneRef, h2.2.2, Pi.single_eq_same]; rfl
  · rw [oneRef, Pi.single_eq_of_ne fun h => h2 ⟨h1.1, h1.2, h.symm⟩]; rfl
  · exact absurd ⟨h2.1, h2.2.1⟩ h1
  · rfl

theorem procRefs_eq_card (t : Slot → Proc) (k : Fs.Slot) : procRefs t k =
    (univ.filter fun p => (t p).life = .live ∧ (t p).cwd = k).card := by
  rw [procRefs, Finset.sum_apply, card_filter, Nat.cast_sum]
  refine sum_congr rfl fun p _ => ?_
  rw [procRef]
  split_ifs with h1 h2 h2
  · rw [oneRef, h2.2, Pi.single_eq_same]; rfl
  · rw [oneRef, Pi.single_eq_of_ne fun h => h2 ⟨h1, h.symm⟩]; rfl
  · exact absurd h2.1 h1
  · rfl

/-- **Inode reference counts balance.**  From any disk, after any sequence of completed calls by
any processes, the count of an entry of the inode cache is the number of open files on it plus the
number of processes whose current directory it is, and no inode is held by two entries. -/
theorem inode_refs {disk : Disk} {devsw : Fin NDEV → Fs.Devsw} {s₀ s : State}
    (hboot : boot disk devsw = .ok s₀) (hrun : Reaches State.step s₀ s) :
    (∀ k, (s.fs.icache k).ref =
      (univ.filter fun f => 0 < (s.file f).ref ∧ (s.file f).type = .inode ∧
        (s.file f).ip = k).card +
      (univ.filter fun p => (s.proc p).life = .live ∧ (s.proc p).cwd = k).card) ∧
    ∀ k l, 0 < (s.fs.icache k).ref → 0 < (s.fs.icache l).ref →
      (s.fs.icache k).dev = (s.fs.icache l).dev → (s.fs.icache k).inum = (s.fs.icache l).inum →
      k = l := by
  have h : Off 0 s := hrun.inv (fun _ _ _ h hstep => h.step hstep) (.boot hboot)
  refine ⟨fun k => ?_, h.unique⟩
  rw [h.ref, fileRefs_eq_card, procRefs_eq_card, Pi.zero_apply, add_zero]

/-- A disk with an empty root directory. -/
def emptyRoot : Disk := fun b =>
  if b = 1 then Mkfs.sb.toBlock
  else if b = (Fs.IBLOCK ROOTINO Mkfs.sb).toNat then
    Fs.putDinode Buf.zero ROOTINO.toNat { Fs.Dinode.zero with type := Fs.T_DIR, nlink := 1 }
  else Buf.zero

/-- No device has a driver. -/
def noDevsw : Fin NDEV → Fs.Devsw := fun _ => ⟨none, none⟩

/-- The first process opens the root directory, duplicates the descriptor and forks; the child
fails to remove `x` and to change to `/.`, changes to `/`, fails to open `x` and closes. -/
def someCalls : List (Slot × Call) :=
  [(0, .open [47] 0), (0, .dup 0), (0, .fork true), (1, .unlink [120]), (1, .chdir [47, 46]),
    (1, .chdir [47]), (1, .open [120] 0), (1, .close 0)]

/-- The hypotheses of `inode_refs` are satisfiable: after `someCalls` the root directory is held by
one file and two processes. -/
theorem inode_refs_emptyRoot : ∃ s₀ s, boot emptyRoot noDevsw = .ok s₀ ∧
    Reaches State.step s₀ s ∧ (s.fs.icache 0).ref = 3 ∧
    (univ.filter fun f => 0 < (s.file f).ref ∧ (s.file f).type = .inode ∧
      (s.file f).ip = 0).card +
    (univ.filter fun p => (s.proc p).life = .live ∧ (s.proc p).cwd = 0).card = 3 := by
  have hrun : ((boot emptyRoot noDevsw).toOption.bind fun s₀ =>
      runSteps State.step s₀ someCalls).map (fun s => (s.fs.icache 0).ref) = some 3 := by
    decide +kernel
  obtain ⟨s, hs, href⟩ := map_eq_some_iff.1 hrun
  obtain ⟨s₀, hs₀, hsteps⟩ := bind_eq_some_iff.1 hs
  have hboot : boot emptyRoot noDevsw = .ok s₀ := by
    cases hb : boot emptyRoot noDevsw with
    | error e => rw [hb] at hs₀; cases hs₀
    | ok s' => rw [hb] at hs₀; rw [some.inj hs₀]
  have hreach := reaches_of_runSteps hsteps
  refine ⟨s₀, s, hboot, hreach, href, ?_⟩
  have := (inode_refs hboot hreach).1 0
  rw [href] at this
  omega

end Xv6.Sys
