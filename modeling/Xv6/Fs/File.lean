/-
# Open files

`struct file` and the functions `fileread` and `filewrite` of `file.c`.

`filewrite` stores the bytes in pieces of at most `maxWrite`, each in an operation of
its own, and `writei` reports every piece as stored, also when the disk was full.
The theorems below follow a call through all its pieces (`WriteRun`).  When the
blocks needed are free everything is stored; when they are not, the call still
returns `n` unless a later piece is turned down, which happens when it begins past
the end of the file (`Returns`).  So the result can be trusted exactly when the
blocks needed are free or the call returns -1 (`filewrite_reported`).
-/

import Xv6.Fs.ByteArray
import Xv6.Fs.Entries

namespace Xv6.Fs

open Except Lib List Nat State UInt32

/-- `type` of `struct file`. -/
inductive FdType where
  | none
  | pipe
  | inode
deriving DecidableEq

/-- A pipe as seen from `file.c`: what `piperead` and `pipewrite` give. -/
structure Pipe where
  read : ℤ → ℤ × List UInt8
  write : (ℕ → UInt8) → ℤ → ℤ

/-- `struct file`. -/
structure File where
  type : FdType
  ref : ℤ
  readable : Bool
  writable : Bool
  pipe : Pipe
  ip : Slot
  off : UInt32

/-- `f->off += r` if `r > 0`. -/
def File.advance (f : File) (r : ℤ) : File :=
  if 0 < r then { f with off := f.off + ofInt r } else f

/-- The read of an inode.  There is no operation of the log around it. -/
def readOp (k : Slot) (off n : UInt32) : Prog State (ℤ × List UInt8) := do
  inLog (Log.State.init (← get).sb) do
    ilock k
    let r ← readi k off n
    iunlock k
    return r

/-- Read from file `f`: the result, the bytes and the file. -/
def fileread (f : File) (n : ℤ) : Prog State (ℤ × List UInt8 × File) := do
  if !f.readable then return (-1, [], f)
  else match f.type with
  | .pipe => return ((f.pipe.read n).1, (f.pipe.read n).2, f)
  | .inode => do
      let r ← readOp f.ip f.off (ofInt n)
      return (r.1, r.2, f.advance r.1)
  | .none => Prog.panic "fileread"

/-- The most bytes `filewrite` stores in one operation, `((MAXOPBLOCKS-1-1-2) / 2) * 512`. -/
def maxWrite : ℕ := (MAXOPBLOCKS - 1 - 1 - 2) / 2 * 512

theorem maxWrite_eq : maxWrite = 1536 := rfl

/-- The operation of one piece of a write. -/
def writeOp (k : Slot) (src : ℕ → UInt8) (off n : UInt32) : Prog State ℤ := inOp do
  ilock k
  let r ← writei k src off n
  iunlock k
  return r

/-- The loop of `filewrite`: the number of bytes it has passed, and the file. -/
def filewriteLoop (addr : ℕ → UInt8) (n i : ℕ) (f : File) : Prog State (ℕ × File) := do
  if i < n then
    let n1 := min (n - i) maxWrite
    let r ← writeOp f.ip (fun j => addr (i + j)) f.off (ofNat n1)
    if r < 0 then return (i, f)
    else if r ≠ n1 then Prog.panic "short filewrite"
    else filewriteLoop addr n (i + n1) (f.advance r)
  else return (i, f)
termination_by n - i
decreasing_by
  have : 0 < maxWrite := by decide
  omega

/-- Write to file `f`: the result and the file. -/
def filewrite (f : File) (addr : ℕ → UInt8) (n : ℤ) : Prog State (ℤ × File) := do
  if !f.writable then return (-1, f)
  else match f.type with
  | .pipe => return (f.pipe.write addr n, f)
  | .inode => do
      let (i, f) ← filewriteLoop addr n.toNat 0 f
      return (if (i : ℤ) = n then n else -1, f)
  | .none => Prog.panic "filewrite"

/-! ### One piece of a write -/

section Piece

variable {s s' s2 : State} {k : Slot} {E : Fail → Prop} {src : ℕ → UInt8}

variable (h : Inv s) (hk : s.Loaded k)

include h hk

theorem lockIn_addr (bn : ℕ) : (s.lockIn k).addr k bn = s.addr k bn := by
  rw [addr, lockIn_toDinode h hk]; rfl

theorem lockIn_data : (s.lockIn k).data k = s.data k := by
  funext x
  rw [data, lockIn_toDinode h hk]; rfl

variable (hl : (s.icache k).locked = false)

include hl

theorem unlock_lockIn : (s.lockIn k).unlock k = s := by
  rw [lockIn_of_loaded h hk, unlock, setInode_setInode]
  exact setInode_eq_self (by rw [← hl])

/-- What is done to a file while it is locked, seen from outside. -/
theorem Edits.unlocked (he : Edits k (s.lockIn k) s2) : Edits k s (s2.unlock k) := by
  obtain ⟨-, hcur, -⟩ := h.lockIn (h.live hk) hk.1
  have hlk := lockIn_of_loaded h hk
  have hself := lockIn_icache h hk
  obtain ⟨hinv', hcur'⟩ := he.inv.setBook (k := k) (f := fun ip => { ip with locked := false })
    rfl rfl rfl rfl (he.inv.coh.nonneg k) Iff.rfl
  have hinum : ((s.lockIn k).icache k).inum = (s.icache k).inum := by rw [hself]
  exact {
    inv := hinv'
    sb := he.sb
    devsw := he.devsw
    others := fun l hl => by
      rw [unlock, setInode_of_ne hl, he.others l hl, hlk, setInode_of_ne hl]
    entry := by rw [unlock, setInode_self, he.entry, hself, ← hl]
    cur := fun i hi => by
      rw [show (s2.unlock k).cur = s2.cur from hcur', he.cur i (hinum ▸ hi), hcur]
    blocks := fun i hi hli => by
      have := he.blocks i (hinum ▸ hi) (by rw [hcur]; exact hli)
      rwa [hcur] at this
    keep := fun bn h0 => by
      have := he.keep bn
      simp only [addr, hself] at this
      rw [addr, unlock, setInode_self]
      exact this h0
    dinode := fun i hi hn => he.dinode i (hinum ▸ hi) hn
    logged := he.logged
    console := he.console }

theorem Wrote.unlocked {off n m : ℕ} (hw : Wrote k src off n (s.lockIn k) m s2) :
    Wrote k src off n s m (s2.unlock k) := by
  have hself := lockIn_icache h hk
  have hself2 : ((s2.unlock k).icache k).toDinode = (s2.icache k).toDinode := by
    rw [unlock, setInode_self]
  have hd := lockIn_toDinode h hk
  have haddr : ∀ bn, (s2.unlock k).addr k bn = s2.addr k bn := fun bn => by
    rw [addr, hself2]; rfl
  have hind : (s2.unlock k).indirect k = s2.indirect k :=
    congrArg (·.addrs (Fin.last NDIRECT)) hself2
  have hind' : (s.lockIn k).indirect k = s.indirect k := congrArg (·.addrs (Fin.last NDIRECT)) hd
  have hdata : (s2.unlock k).data k = s2.data k := funext fun x => by
    rw [State.data, hself2]; rfl
  have hneed : need (s.lockIn k) k off n = need s k off n := by rw [need, hd]; rfl
  have hinum : ((s.lockIn k).icache k).inum = (s.icache k).inum := by rw [hself]
  have hsize : ((s.lockIn k).icache k).size = (s.icache k).size := by rw [hself]
  have hsize2 : ((s2.unlock k).icache k).size = (s2.icache k).size := by
    rw [unlock, setInode_self]
  refine { hw.toEdits.unlocked h hk hl with
    le := hw.le
    data := by rw [hdata, hw.data, lockIn_data h hk]
    rest := fun bn hbn => by rw [haddr, hw.rest bn hbn, lockIn_addr h hk]
    mapped := fun bn hbn => by rw [haddr]; exact hw.mapped bn hbn
    passed := fun bn hbn => by rw [haddr]; exact hw.passed bn hbn
    size := by rw [hsize2, hw.size, hsize]
    own := ?_
    all := fun hm => ?_
    short := fun hm => ?_
    few := hw.few }
  · have := hw.own
    rw [hinum, hsize] at this
    rw [hself2]
    exact this
  · have := hw.all hm
    rwa [hneed, hind', ← hind] at this
  · have := hw.short hm
    rwa [hneed, ← haddr] at this

omit hl

omit h hk

/-- A piece of a write touches at most four blocks. -/
theorem card_touched_le (off : ℕ) {n : ℕ} (hn : n ≤ maxWrite) : (touched off n).card ≤ 4 := by
  have hsub : touched off n ⊆ Finset.Ico (off / BSIZE) (off / BSIZE + 4) := fun bn hbn => by
    have := (mem_touched.1 hbn).2
    rw [Finset.mem_Ico]
    simp only [maxWrite_eq, BSIZE] at *
    omega
  exact (Finset.card_le_card hsub).trans (by rw [card_Ico]; omega)

/-- **One piece of a write**: it is turned down, or reported as stored. -/
theorem wp_writeOp (h : Inv s) (hk : s.Loaded k) (hl : (s.icache k).locked = false)
    (hty : (s.icache k).type ≠ T_DEV) (hlog : LOGSIZE ≤ s.sb.nlog.toNat) {off n : UInt32}
    (hn : n.toNat ≤ maxWrite) {Q : ℤ → State → Prop}
    (herr : (s.icache k).size.toNat < off.toNat ∨ MAXFILE * BSIZE < off.toNat + n.toNat → Q (-1) s)
    (hrun : ∀ m s', off.toNat ≤ (s.icache k).size.toNat →
      off.toNat + n.toNat ≤ MAXFILE * BSIZE → Wrote k src off.toNat n.toNat s m s' →
      Q n.toNat s') : wp (writeOp k src off n) E Q s := by
  have hfew := card_touched_le off.toNat hn
  obtain ⟨hinv, hcur, hload⟩ := h.lockIn (h.live hk) hk.1
  have hself := lockIn_icache h hk
  refine wp_inOp_few (c := 25) (by decide) (by simp only [LOGSIZE] at hlog; omega) ?_
  rw [wp_bind]
  refine wp_ilock_free h hk.1 hl (h.live hk) ?_
  rw [wp_bind]
  refine wp_writei hinv hload (by rw [hself]; exact hty) (fun hbad => ?_)
    fun m s2 hoff hmax hw => ?_
  · simp only [wp_bind, wp_pure]
    refine wp_iunlock_locked hload.1 (by rw [hself]) ?_
    rw [unlock_lockIn h hk hl]
    rw [hself] at hbad
    refine ⟨by omega, herr (hbad.imp id fun hc => ?_)⟩
    simp only [MAXFILE, BSIZE] at *
    omega
  · simp only [wp_bind, wp_pure]
    refine wp_iunlock_locked (hw.loaded hload).1 (by rw [hw.entry, hself]) ?_
    have hw' := hw.unlocked h hk hl
    rw [hself] at hoff
    exact ⟨by have := hw'.few; omega, hrun m _ hoff hmax hw'⟩

end Piece

/-! ### A whole write -/

/-- Where the last piece of a write of `n` bytes begins. -/
def lastStart (n : ℕ) : ℕ := (n - 1) / maxWrite * maxWrite

/-- The bytes of the pieces, without the last one, that end below the size `S`. -/
def piecesBelow (S off n : ℕ) : ℕ := min (lastStart n) ((S - off) / maxWrite * maxWrite)

/-- **When a write of `n > 0` bytes at `off` returns `n`**: the range is allowed, and the
blocks of all pieces but the last are free, or are mapped for those pieces that
end past the old size. -/
def Returns (s : State) (d : Dinode) (off n : ℕ) : Prop :=
  off ≤ d.size.toNat ∧ off + n ≤ MAXFILE * BSIZE ∧
    (needOf s.disk d (touched off (lastStart n)) ≤ s.free ∨
      needOf s.disk d (touched (off + piecesBelow d.size.toNat off n)
        (lastStart n - piecesBelow d.size.toNat off n)) = 0)

section Returns

variable {s s' : State} {k : Slot} {src : ℕ → UInt8} {off n m : ℕ}

theorem returns_of_le (hn : n ≤ maxWrite) (s : State) (d : Dinode) (off : ℕ) :
    Returns s d off n ↔ off ≤ d.size.toNat ∧ off + n ≤ MAXFILE * BSIZE := by
  have hlast : lastStart n = 0 := by rw [lastStart, maxWrite_eq] at *; omega
  rw [Returns, hlast, touched_zero, needOf_eq_zero.2 (by simp)]
  simp

theorem lastStart_of_lt (hn : maxWrite < n) :
    lastStart n = maxWrite + lastStart (n - maxWrite) := by
  rw [lastStart, lastStart, maxWrite_eq] at *; omega

theorem piecesBelow_of_le {S : ℕ} (hn : maxWrite < n) (hS : off + maxWrite ≤ S) :
    piecesBelow S off n = maxWrite + piecesBelow S (off + maxWrite) (n - maxWrite) := by
  rw [piecesBelow, piecesBelow, lastStart_of_lt hn, maxWrite_eq] at *; omega

theorem piecesBelow_of_lt {S : ℕ} (hS : S < off + maxWrite) : piecesBelow S off n = 0 := by
  rw [piecesBelow, maxWrite_eq] at *; omega

theorem piecesBelow_cases (S off n : ℕ) :
    (piecesBelow S off n = 0 ∨ maxWrite ≤ piecesBelow S off n) ∧
    piecesBelow S off n ≤ lastStart n := by
  rw [piecesBelow, lastStart, maxWrite_eq]; omega

/-- The piece that comes next finds the same situation. -/
theorem returns_step (hw : Wrote k src off maxWrite s m s')
    (hoff : off ≤ (s.icache k).size.toNat) (hn : maxWrite < n) :
    Returns s (s.icache k).toDinode off n ↔
      Returns s' (s'.icache k).toDinode (off + maxWrite) (n - maxWrite) := by
  have hsize := hw.size
  have hrest : ∀ bn ∉ touched off m, blockAddr s'.disk (s'.icache k).toDinode bn =
      blockAddr s.disk (s.icache k).toDinode bn := hw.rest
  have hkeep : ∀ bn, blockAddr s.disk (s.icache k).toDinode bn ≠ 0 →
      blockAddr s'.disk (s'.icache k).toDinode bn ≠ 0 := fun bn h0 => by
    have := hw.keep bn h0
    rw [addr, addr] at this
    rwa [this]
  have hmono : ∀ T, needOf s.disk (s.icache k).toDinode T = 0 →
      needOf s'.disk (s'.icache k).toDinode T = 0 := fun T hT =>
    needOf_eq_zero.2 fun bn hbn => hkeep bn (needOf_eq_zero.1 hT bn hbn)
  have hsame : ∀ T, (∀ bn ∈ T, bn ∉ touched off m) → (needOf s.disk (s.icache k).toDinode T = 0 ↔
      needOf s'.disk (s'.icache k).toDinode T = 0) := fun T hT => by
    rw [needOf_eq_zero, needOf_eq_zero]
    exact forall₂_congr fun bn hbn => by rw [hrest bn (hT bn hbn)]
  have hcases := fun S => piecesBelow_cases S (off + maxWrite) (n - maxWrite)
  unfold Returns
  rw [lastStart_of_lt hn]
  generalize lastStart (n - maxWrite) = L at *
  have hmw := maxWrite_eq
  have hle : needOf s.disk (s.icache k).toDinode (touched off maxWrite) ≤
      needOf s.disk (s.icache k).toDinode (touched off (maxWrite + L)) := by
    rw [touched_add]; exact needOf_mono Finset.subset_union_left
  have hrange : off + n ≤ MAXFILE * BSIZE ↔
      off + maxWrite + (n - maxWrite) ≤ MAXFILE * BSIZE := by omega
  rw [hrange]
  rcases hw.le.lt_or_eq with hlt | rfl
  · obtain ⟨-, hfree, hneed, hzero⟩ := hw.short hlt
    rw [need] at hneed
    by_cases hS : off + maxWrite ≤ (s.icache k).size.toNat
    · have hS' : (s'.icache k).size.toNat = (s.icache k).size.toNat := by omega
      have hr := hcases (s.icache k).size.toNat
      rw [hS', piecesBelow_of_le hn hS, hfree]
      generalize piecesBelow (s.icache k).size.toNat (off + maxWrite) (n - maxWrite) = r at *
      rw [← Nat.add_assoc, Nat.add_sub_add_left, hsame _ fun bn hbn hbn' => ?_]
      · refine ⟨fun h => ⟨hS, h.2.1, .inr (h.2.2.resolve_left (by omega))⟩,
          fun h => ⟨hoff, h.2.1, .inr ?_⟩⟩
        refine h.2.2.elim (fun h0 => le_zero.1 (le_trans (needOf_mono ?_) h0)) id
        rw [← Nat.add_sub_cancel' hr.2, touched_add]
        simp
      · have h1 := (mem_touched.1 hbn).2
        have h2 := (mem_touched.1 hbn').2
        refine hw.mapped bn hbn' ?_
        rwa [show bn = (off + m) / BSIZE by simp only [BSIZE] at *; omega]
    · rw [piecesBelow_of_lt (by omega), Nat.add_zero, Nat.sub_zero]
      exact ⟨fun h => by omega, fun h => by omega⟩
  · obtain ⟨-, hfree, hind, hind'⟩ := hw.all rfl
    have hunion : ∀ T, needOf s.disk (s.icache k).toDinode (touched off maxWrite ∪ T) =
        needOf s.disk (s.icache k).toDinode (touched off maxWrite) +
          needOf s'.disk (s'.icache k).toDinode T :=
            fun T => needOf_union hw.mapped hw.rest hind hind'
    clear hind hind'
    have hfirst : needOf s.disk (s.icache k).toDinode (touched off (maxWrite + L)) ≤ s.free ↔
        needOf s'.disk (s'.icache k).toDinode (touched (off + maxWrite) L) ≤ s'.free := by
      rw [touched_add, hunion, hfree, need]; omega
    rw [hfirst]
    by_cases hS : off + maxWrite ≤ (s.icache k).size.toNat
    · have hS' : (s'.icache k).size.toNat = (s.icache k).size.toNat := by omega
      have hr := hcases (s.icache k).size.toNat
      rw [hS', piecesBelow_of_le hn hS]
      generalize piecesBelow (s.icache k).size.toNat (off + maxWrite) (n - maxWrite) = r at *
      rw [← Nat.add_assoc, Nat.add_sub_add_left]
      refine ⟨fun h => ⟨hS, h.2.1, h.2.2.imp id (hmono _)⟩, ?_⟩
      rintro ⟨-, h2, h3⟩
      refine ⟨hoff, h2, ?_⟩
      rcases hr.1 with rfl | hr
      · simp only [add_zero, Nat.sub_zero] at h3
        exact .inl (h3.elim id fun h0 => h0 ▸ zero_le _)
      · refine h3.imp id (hsame _ fun bn hbn hbn' => ?_).2
        have h1 := (mem_touched.1 hbn).2
        have h2 := (mem_touched.1 hbn').2
        simp only [BSIZE] at *
        omega
    · have hS' : (s'.icache k).size.toNat = off + maxWrite := by omega
      rw [hS', piecesBelow_of_lt (by omega), piecesBelow_of_lt (by omega), add_zero,
        Nat.add_zero, Nat.sub_zero, Nat.sub_zero]
      refine ⟨fun h => ⟨le_rfl, h.2.1, .inl (h.2.2.elim id fun h0 => ?_)⟩,
        fun h => ⟨hoff, h.2.1, .inl (h.2.2.elim id fun h0 => h0 ▸ zero_le _)⟩⟩
      rw [← hfirst, h0]
      exact zero_le _

end Returns

/-- **What a write of `n > 0` bytes at `off` has done** to the file in entry `k`; `done` says
that it returns `n`. -/
structure WriteRun (k : Slot) (src : ℕ → UInt8) (off n : ℕ) (s : State) (done : Prop) (s' : State) :
    Prop extends Edits k s s' where
  below : ∀ x < off, s'.data k x = s.data k x
  returns : done ↔ Returns s (s.icache k).toDinode off n
  stored : done → need s k off n ≤ s.free →
    s'.data k = overlaid (s.data k) src off n ∧
    (∀ bn ∈ touched off n, s'.addr k bn ≠ 0) ∧
    (s'.icache k).size.toNat = max (s.icache k).size.toNat (off + n)
  lost : done → s.free < need s k off n →
    ∃ y, off ≤ y ∧ y < off + n ∧ s'.data k y = s.data k y

section Run

variable {s s1 s' : State} {k : Slot} {src : ℕ → UInt8} {off n m : ℕ} {done : Prop}
  {E : Fail → Prop}

theorem WriteRun.refused (h : Inv s) (hdone : ¬ done)
    (hbad : (s.icache k).size.toNat < off ∨ MAXFILE * BSIZE < off + n) :
    WriteRun k src off n s done s :=
  { (Grows.refl h).toEdits with
    below := fun _ _ => rfl
    returns := ⟨fun hd => absurd hd hdone, fun hr => by have := hr.1; have := hr.2.1; omega⟩
    stored := fun hd => absurd hd hdone
    lost := fun hd => absurd hd hdone }

/-- A write that fits in one piece. -/
theorem WriteRun.last (hn : n ≤ maxWrite) (hdone : done) (hoff : off ≤ (s.icache k).size.toNat)
    (hmax : off + n ≤ MAXFILE * BSIZE) (hw : Wrote k src off n s m s') :
    WriteRun k src off n s done s' := by
  refine { hw.toEdits with
    below := fun x hx => by rw [hw.data, overlaid_of_not (by omega)]
    returns := ⟨fun _ => (returns_of_le hn _ _ _).2 ⟨hoff, hmax⟩, fun _ => hdone⟩
    stored := fun _ hneed => ?_
    lost := fun _ hneed => ?_ }
  · obtain rfl : m = n :=
      hw.le.antisymm (not_lt.1 fun hlt => absurd (hw.short hlt).2.2.1 (by omega))
    exact ⟨hw.data, hw.mapped, hw.size⟩
  · have hlt : m < n := hw.le.lt_of_ne fun he => by have := (hw.all he).2.1; omega
    refine ⟨off + m, by omega, by omega, ?_⟩
    rw [hw.data, overlaid_of_not (by omega)]

/-- A piece and the rest of the write. -/
theorem WriteRun.cons (hn : maxWrite < n) (hoff : off ≤ (s.icache k).size.toNat)
    (hw : Wrote k src off maxWrite s m s1)
    (hrun : WriteRun k (fun j => src (maxWrite + j)) (off + maxWrite) (n - maxWrite) s1 done s') :
    WriteRun k src off n s done s' := by
  obtain ⟨r, rfl⟩ := Nat.exists_eq_add_of_lt hn
  have hr : maxWrite + r + 1 - maxWrite = r + 1 := by omega
  rw [hr] at hrun
  have hmono : need s k off maxWrite ≤ need s k off (maxWrite + r + 1) := by
    rw [need, need, add_assoc, touched_add]
    exact needOf_mono Finset.subset_union_left
  have hunion : m = maxWrite → need s k off (maxWrite + r + 1) =
      need s k off maxWrite + need s1 k (off + maxWrite) (r + 1) := fun hm => by
    obtain ⟨-, -, hind, hind'⟩ := hw.all hm
    rw [need, add_assoc, touched_add]
    exact needOf_union (hm ▸ hw.mapped) (hm ▸ hw.rest) hind hind'
  have hfull : m = maxWrite → s.free = s1.free + need s k off maxWrite := fun hm => (hw.all hm).2.1
  refine { hw.toEdits.trans hrun.toEdits with
    below := fun x hx => ?_
    returns := ?_
    stored := fun hd hneed => ?_
    lost := fun hd hneed => ?_ }
  · rw [hrun.below x (by omega), hw.data, overlaid_of_not (by omega)]
  · rw [hrun.returns, returns_step hw hoff hn, hr]
  · have hm : m = maxWrite :=
      hw.le.antisymm (not_lt.1 fun hlt => absurd (hw.short hlt).2.2.1 (by omega))
    have := hunion hm
    have := hfull hm
    obtain ⟨hdata, hmap, hsize⟩ := hrun.stored hd (by omega)
    refine ⟨by rw [hdata, hw.data, hm, overlaid_add, add_assoc], fun bn hbn => ?_, ?_⟩
    · rw [add_assoc, touched_add, Finset.mem_union] at hbn
      rcases hbn with hbn | hbn
      · have h0 := hw.mapped bn (hm ▸ hbn)
        rw [hrun.keep bn h0]
        exact h0
      · exact hmap bn hbn
    · rw [hsize, hw.size, hm]
      omega
  · rcases hw.le.lt_or_eq with hlt | hm
    · refine ⟨off + m, by omega, by omega, ?_⟩
      rw [hrun.below _ (by omega), hw.data, overlaid_of_not (by omega)]
    · have := hunion hm
      have := hfull hm
      obtain ⟨y, hy1, hy2, hy⟩ := hrun.lost hd (by omega)
      refine ⟨y, by omega, by omega, ?_⟩
      rw [hy, hw.data, overlaid_of_not (by omega)]

theorem toNat_ofInt {r : ℕ} (h : r < 2 ^ 32) : (ofInt r).toNat = r := by
  rw [ofInt, toNat_ofNat']
  omega

theorem advance_off {f : File} {r : ℕ} (h : f.off.toNat + r ≤ MAXFILE * BSIZE) :
    (f.advance r).off.toNat = f.off.toNat + r ∧ (f.advance r).ip = f.ip := by
  unfold File.advance
  split_ifs with hr
  · refine ⟨?_, rfl⟩
    rw [UInt32.toNat_add, toNat_ofInt (by simp only [MAXFILE, BSIZE] at h; omega)]
    simp only [MAXFILE, BSIZE] at h
    omega
  · exact ⟨by omega, rfl⟩

/-- **The loop of `filewrite`.** -/
theorem wp_filewriteLoop {f : File} (addr : ℕ → UInt8) {i : ℕ} (h : Inv s) (hk : s.Loaded f.ip)
    (hl : (s.icache f.ip).locked = false) (hty : (s.icache f.ip).type ≠ T_DEV)
    (hlog : LOGSIZE ≤ s.sb.nlog.toNat) (hi : i < n) :
    wp (filewriteLoop addr n i f) E (fun r s' =>
      WriteRun f.ip (fun j => addr (i + j)) f.off.toNat (n - i) s (r.1 = n) s' ∧
      (r.1 = n → r.2.off.toNat = f.off.toNat + (n - i))) s := by
  induction hd : n - i using Nat.strong_induction_on generalizing s f i with
  | _ d ih =>
    have hmw := maxWrite_eq
    have hn1 : (ofNat (min (n - i) maxWrite)).toNat = min (n - i) maxWrite := by
      rw [toNat_ofNat', mod_eq_of_lt (by omega)]
    rw [filewriteLoop, if_pos hi, wp_bind]
    refine wp_writeOp h hk hl hty hlog (by rw [hn1]; exact min_le_right _ _) (fun hbad => ?_)
      fun m s1 hoff hmax hw => ?_
    · rw [hn1] at hbad
      rw [if_pos (by decide), wp_pure]
      exact ⟨.refused h hi.ne (by omega), fun he => absurd he hi.ne⟩
    · rw [hn1] at hmax hw
      rw [hn1, if_neg (by omega), if_neg (by simp)]
      obtain ⟨hadv, hip⟩ := advance_off (f := f) hmax
      by_cases hlast : n - i ≤ maxWrite
      · rw [min_eq_left hlast, hd] at hadv hmax hw ⊢
        rw [filewriteLoop, if_neg (by omega), wp_pure]
        exact ⟨.last (hd ▸ hlast) (by omega) hoff hmax hw, fun _ => hadv⟩
      · rw [min_eq_right (by omega)] at hadv hmax hw hip ⊢
        have hself := hw.entry
        have hk1 := hw.loaded hk
        refine wp_mono (ih (n - (i + maxWrite)) (by omega) hw.inv (hip.symm ▸ hk1)
          (by rw [hip, hself]; exact hl) (by rw [hip, hself]; exact hty) (hw.sb ▸ hlog)
            (by omega) rfl) ?_
        rintro ⟨i', f'⟩ s' ⟨hrun, hf'⟩
        rw [hip, hadv, show n - (i + maxWrite) = d - maxWrite by omega] at hrun
        refine ⟨.cons (by omega) hoff hw (by simpa only [add_assoc] using hrun), fun he => ?_⟩
        have := hf' he
        omega

end Run

/-! ### What the result of a write says -/

/-- The bytes `writei` copies into the file. -/
def copied (k : Slot) (src : ℕ → UInt8) (off n : UInt32) (s : State) : ℕ :=
  match writeLoop k src n.toNat 0 off.toNat s with
  | .ok (off', _) => off' - off.toNat
  | .error _ => 0

/-- What a result `n` of `filewrite` reports: reading `n` bytes at the old offset gives the
bytes that were written, the offset has advanced by `n`, and it is within the file. -/
def Reported (f : File) (addr : ℕ → UInt8) (n : ℕ) (f' : File) (s' : State) : Prop :=
  (∃ f'' s'', fileread { f with readable := true } n s' =
    .ok ((n, (range n).map addr, f''), s'')) ∧
  f'.off.toNat = f.off.toNat + n ∧
  f'.off.toNat ≤ (s'.cur (s'.icache f.ip).inum).size.toNat

section Reported

variable {s s' : State} {f : File} {k : Slot}

variable (h : Inv s) (href : 0 < (s.icache k).ref) (hl : (s.icache k).locked = false) {n : ℕ}

include h href hl

/-- A read outside any operation does the same whether or not the inode has been read. -/
theorem readOp_ready (hlive : Live s.sb s.cur (s.icache k).inum)
    (off n : UInt32) : readOp k off n s = readOp k off n (s.ready k) := by
  refine inLog_congr ?_ rfl
  simp only [bind, StateT.bind, ilock_ready h href hl hlive]

theorem writeOp_ready (hlive : Live s.sb s.cur (s.icache k).inum)
    (src : ℕ → UInt8) (off n : UInt32) :
    writeOp k src off n s = writeOp k src off n (s.ready k) := by
  rw [writeOp, inOp_eq, inOp_eq]
  refine inLog_congr ?_ rfl
  simp only [bind, StateT.bind, ilock_ready h href hl hlive]

omit h href hl

theorem filewriteLoop_ready (h : Inv s) (href : 0 < (s.icache f.ip).ref)
    (hl : (s.icache f.ip).locked = false) (hlive : Live s.sb s.cur (s.icache f.ip).inum)
    (addr : ℕ → UInt8) (hn : 0 < n) :
    filewriteLoop addr n 0 f s = filewriteLoop addr n 0 f (s.ready f.ip) := by
  rw [filewriteLoop, if_pos hn]
  simp only [bind, StateT.bind, writeOp_ready h href hl hlive]

/-- Reading gives the bytes of the file. -/
theorem wp_readOp (h : Inv s) (hk : s.Loaded k) (hl : (s.icache k).locked = false)
    (hty : (s.icache k).type ≠ T_DEV) {off n : UInt32} :
    wp (readOp k off n) (fun _ => True) (fun r _ => r.1 = -1 ∨
      off.toNat ≤ (s.icache k).size.toNat ∧
      ∃ m, m = min n.toNat ((s.icache k).size.toNat - off.toNat) ∧ r.1 = toInt (ofNat m) ∧
        r.2 = (range m).map fun i => s.data k (off.toNat + i)) s := by
  obtain ⟨hinv, hcur, hload⟩ := h.lockIn (h.live hk) hk.1
  have hself := lockIn_icache h hk
  unfold readOp
  simp only [wp_bind, wp_get]
  rw [wp_inLog, wp_bind]
  refine wp_ilock_free h hk.1 hl (h.live hk) ?_
  rw [wp_bind]
  refine wp_readi hinv hload (by rw [hself]; exact hty) (fun _ => ?_) fun m s' hoff _ hm hg _ => ?_
  · rw [wp_bind]
    refine wp_iunlock_locked hload.1 (by rw [hself]) (wp_pure.2 ?_)
    split
    · exact .inl rfl
    · trivial
  · rw [wp_bind]
    refine wp_iunlock_locked (hg.loaded hload).1 (by rw [hg.entry, hself]) (wp_pure.2 ?_)
    rw [hself] at hoff hm
    split
    · exact .inr ⟨hoff, m, hm, rfl, by rw [lockIn_data h hk]⟩
    · trivial

/-- Reading a range whose blocks are mapped changes nothing. -/
theorem readOp_eq (h : Inv s) (hk : s.Loaded k) (hl : (s.icache k).locked = false)
    (hty : (s.icache k).type ≠ T_DEV) (off n : UInt32)
    (hle : off.toNat + n.toNat ≤ (s.icache k).size.toNat) (hn : n.toNat < 2 ^ 31)
    (hmap : ∀ x, off.toNat ≤ x → x < off.toNat + n.toNat → s.addr k (x / BSIZE) ≠ 0) :
    readOp k off n s =
      .ok ((n.toNat, (range n.toNat).map fun i => s.data k (off.toNat + i)), s) := by
  obtain ⟨hinv, hcur, hload⟩ := h.lockIn (h.live hk) hk.1
  have hself := lockIn_icache h hk
  have hsize : ((s.lockIn k).icache k).size = (s.icache k).size := by rw [hself]
  have hlt := (s.icache k).size.toNat_lt
  have hwp : wp (readOp k off n) (fun _ => False) (fun r s' => s' = s ∧
      r = ((n.toNat : ℤ), (range n.toNat).map fun i => s.data k (off.toNat + i))) s := by
    unfold readOp
    simp only [wp_bind, wp_get]
    rw [wp_inLog, wp_bind]
    refine wp_ilock_free h hk.1 hl (h.live hk) ?_
    rw [wp_bind]
    refine wp_readi hinv hload (by rw [hself]; exact hty) (fun hbad => ?_)
      fun m s' hoff _ hm _ hsame => ?_
    · rw [hsize] at hbad
      omega
    · rw [hsize] at hm
      obtain rfl : m = n.toNat := by omega
      rw [wp_bind, hsame fun x hx hx' => by rw [lockIn_addr h hk]; exact hmap x hx hx']
      refine wp_iunlock_locked hload.1 (by rw [hself]) (wp_pure.2 ?_)
      rw [unlock_lockIn h hk hl, drop_length]
      refine ⟨rfl, ?_⟩
      rw [lockIn_data h hk, toInt_eq (by rw [toNat_ofNat']; omega), toNat_ofNat',
        mod_eq_of_lt (by omega)]
  obtain ⟨r, s', hok, rfl, rfl⟩ := exists_ok_of_wp hwp
  exact hok

theorem fileread_eq (ht : f.type = .inode) {r : ℤ × List UInt8}
    (hr : readOp f.ip f.off (ofInt n) s = .ok (r, s')) :
    fileread { f with readable := true } n s =
    .ok ((r.1, r.2, { f with readable := true }.advance r.1), s') := by
  simp only [fileread, ht, bind, StateT.bind, hr, Except.bind, Bool.not_true, Bool.false_eq_true,
    if_false]
  rfl

theorem readOp_of_fileread (ht : f.type = .inode) {r : ℤ} {bytes : List UInt8} {f'' : File}
    (hr : fileread { f with readable := true } n s = .ok ((r, bytes, f''), s')) :
    readOp f.ip f.off (ofInt n) s = .ok ((r, bytes), s') := by
  rcases hop : readOp f.ip f.off (ofInt n) s with e | ⟨r', s''⟩
  · simp [fileread, ht, bind, StateT.bind, hop, Except.bind] at hr
  · rw [fileread_eq ht hop] at hr
    simp only [Except.ok.injEq, Prod.mk.injEq] at hr
    obtain ⟨⟨rfl, rfl, -⟩, rfl⟩ := hr
    rfl

theorem filewrite_eq (hw : f.writable = true) (ht : f.type = .inode) {addr : ℕ → UInt8} {i : ℕ}
    {f' : File} (h : filewriteLoop addr n 0 f s = .ok ((i, f'), s')) :
    filewrite f addr n s = .ok ((if (i : ℤ) = n then (n : ℤ) else -1, f'), s') := by
  simp only [filewrite, hw, ht, bind, StateT.bind, h, Except.bind, Bool.not_true,
    Bool.false_eq_true, if_false, Int.toNat_natCast]
  rfl

/-- **When the result of a write of `n` bytes can be trusted**: if it returns `n`, the
blocks it needs are free. -/
def Lossless (s : State) (d : Dinode) (off n : ℕ) : Prop :=
  if n = 0 then off ≤ d.size.toNat
  else Returns s d off n → needOf s.disk d (touched off n) ≤ s.free

variable (h : Inv s) (hw : f.writable = true) (ht : f.type = .inode)

include h hw ht

/-- A write of no bytes. -/
theorem reported_zero_iff (href : 0 < (s.icache f.ip).ref) (hl : (s.icache f.ip).locked = false)
    (hlive : Live s.sb s.cur (s.icache f.ip).inum)
    (hdev : (s.cur (s.icache f.ip).inum).type ≠ T_DEV) :
    (∀ addr f' s', filewrite f addr (0 : ℕ) s = .ok (((0 : ℕ), f'), s') →
      Reported f addr 0 f' s') ↔ f.off.toNat ≤ (s.cur (s.icache f.ip).inum).size.toNat := by
  have hrun : ∀ addr, filewrite f addr (0 : ℕ) s = .ok (((0 : ℕ), f), s) := fun addr => by
    have hloop : filewriteLoop addr 0 0 f s = .ok ((0, f), s) := by
      rw [filewriteLoop, if_neg (by omega)]; rfl
    rw [filewrite_eq hw ht hloop, if_pos rfl]
  refine ⟨fun hall => (hall (fun _ => 0) f s (hrun _)).2.2, fun hle addr f' s' hok => ?_⟩
  rw [hrun addr] at hok
  simp only [Except.ok.injEq, Prod.mk.injEq, true_and] at hok
  obtain ⟨rfl, rfl⟩ := hok
  obtain ⟨hinv, hcur, hload, hself⟩ := h.ready hlive href
  have hread := readOp_eq hinv hload (by rw [hself]) (by rw [hself]; exact hdev)
    f.off 0 (by rw [hself]; exact hle) (by decide) (fun x h1 h2 => absurd h2 (by
      have : (0 : UInt32).toNat = 0 := rfl
      omega))
  rw [← readOp_ready h href hl hlive] at hread
  exact ⟨⟨_, _, fileread_eq (n := 0) ht hread⟩, rfl, hle⟩

/-- A write of some bytes to a file that has been read. -/
theorem reported_pos_iff (hk : s.Loaded f.ip) (hl : (s.icache f.ip).locked = false)
    (hdev : (s.icache f.ip).type ≠ T_DEV) (hlog : LOGSIZE ≤ s.sb.nlog.toNat) (hn : 0 < n) :
    (∀ addr f' s', filewrite f addr n s = .ok ((n, f'), s') → Reported f addr n f' s') ↔
      (Returns s (s.icache f.ip).toDinode f.off.toNat n → need s f.ip f.off.toNat n ≤ s.free) := by
  have hrun : ∀ addr, ∃ i f' s', filewriteLoop addr n 0 f s = .ok ((i, f'), s') ∧
      WriteRun f.ip addr f.off.toNat n s (i = n) s' ∧
      (i = n → f'.off.toNat = f.off.toNat + n) := fun addr => by
    obtain ⟨⟨i, f'⟩, s', hok, hr, hoff⟩ := exists_ok_of_wp
      (wp_filewriteLoop addr h hk hl hdev hlog hn)
    simp only [zero_add, Nat.sub_zero] at hr hoff
    exact ⟨i, f', s', hok, hr, hoff⟩
  have hread : ∀ {addr s'} {P : Prop}, WriteRun f.ip addr f.off.toNat n s P s' →
      Inv s' ∧ s'.Loaded f.ip ∧ (s'.icache f.ip).locked = false ∧
        (s'.icache f.ip).type ≠ T_DEV := fun hr =>
    ⟨hr.inv, hr.loaded hk, by rw [hr.entry]; exact hl, by rw [hr.type_eq]; exact hdev⟩
  refine ⟨fun hall hret => ?_, fun hcond addr f' s' hok => ?_⟩
  · by_contra hneed
    obtain ⟨i, f', s', hok, hr, hoff⟩ := hrun fun j => s.data f.ip (f.off.toNat + j) + 1
    obtain rfl := hr.returns.2 hret
    have hwr := filewrite_eq hw ht hok
    rw [if_pos rfl] at hwr
    obtain ⟨⟨f'', s'', hfr⟩, -, -⟩ := hall _ f' s' hwr
    obtain ⟨y, hy1, hy2, hy⟩ := hr.lost rfl (not_le.1 hneed)
    obtain ⟨hinv, hload, hlock, hdev'⟩ := hread hr
    have hpost := post_of_wp (wp_readOp hinv hload hlock hdev') (readOp_of_fileread ht hfr)
    obtain hbad | ⟨-, m, hm, -, hbytes⟩ := hpost
    · simp only at hbad
      omega
    · have hlen := congrArg length hbytes
      simp only [length_map, length_range] at hlen
      subst hlen
      have := congrArg (·[y - f.off.toNat]?) hbytes
      simp only [getElem?_map, getElem?_range (show y - f.off.toNat < i by omega),
        Option.map_some, Option.some.injEq] at this
      rw [Nat.add_sub_cancel' hy1, hy] at this
      exact absurd this (by simp)
  · obtain ⟨i, f1, s1, hok', hr, hoff⟩ := hrun addr
    rw [filewrite_eq hw ht hok'] at hok
    simp only [ok.injEq, Prod.mk.injEq] at hok
    obtain ⟨⟨hres, rfl⟩, rfl⟩ := hok
    have hi : i = n := by
      by_contra hne
      rw [if_neg (by omega)] at hres
      omega
    obtain ⟨-, hmax, -⟩ := hr.returns.1 hi
    obtain ⟨hdata, hmap, hsize⟩ := hr.stored hi (hcond (hr.returns.1 hi))
    obtain ⟨hinv, hload, hlock, hdev'⟩ := hread hr
    have hn' : (ofInt (n : ℤ)).toNat = n :=
      toNat_ofInt (by simp only [MAXFILE, BSIZE] at hmax; omega)
    have hback := readOp_eq hinv hload hlock hdev' f.off (ofInt n)
      (by rw [hn']; omega) (by rw [hn']; simp only [MAXFILE, BSIZE] at hmax; omega) fun x h1 h2 =>
        hmap _ (div_mem_touched h1 (hn' ▸ h2) (by omega))
    have hbytes : (range n).map (fun i => s1.data f.ip (f.off.toNat + i)) =
        (range n).map addr := map_congr_left fun j hj => by
      have := mem_range.1 hj
      rw [hdata, overlaid, if_pos (by omega), Nat.add_sub_cancel_left]
    rw [hn', hbytes] at hback
    refine ⟨⟨_, _, fileread_eq ht hback⟩, hoff hi, ?_⟩
    rw [hinv.coh.cur_loaded hload, hoff hi, hsize]
    exact Nat.le_max_right _ _

theorem filewrite_ready (href : 0 < (s.icache f.ip).ref) (hl : (s.icache f.ip).locked = false)
    (hlive : Live s.sb s.cur (s.icache f.ip).inum) (addr : ℕ → UInt8) (hn : 0 < n) :
    filewrite f addr n s = filewrite f addr n (s.ready f.ip) := by
  simp only [filewrite, hw, ht, bind, StateT.bind, Bool.not_true, Bool.false_eq_true, if_false,
    Int.toNat_natCast, filewriteLoop_ready h href hl hlive addr hn]

omit h hw ht

/-- The count returned by `writei` is the number of bytes copied exactly when the blocks it
needs are free. -/
theorem writei_copied_iff (h : Inv s) (hk : s.Loaded k) (hdev : (s.icache k).type ≠ T_DEV)
    (off n : UInt32) :
    (∀ src r s', writei k src off n s = .ok (r, s') → 0 ≤ r → r = copied k src off n s) ↔
      (off.toNat ≤ (s.icache k).size.toNat → off.toNat + n.toNat ≤ MAXFILE * BSIZE →
        need s k off.toNat n.toNat ≤ s.free) := by
  have hloop : ∀ src, off.toNat + n.toNat ≤ MAXFILE * BSIZE → ∃ m,
      copied k src off n s = m ∧ (m = n.toNat ↔ need s k off.toNat n.toNat ≤ s.free) := by
    intro src hmax
    obtain ⟨_, s', hok, m, rfl, hrun⟩ := exists_ok_of_wp
      (wp_writeLoop src h hk (n := n.toNat) 0 hmax)
    simp only [Nat.zero_add, Nat.sub_zero] at hrun
    refine ⟨m, by rw [copied, hok]; exact Nat.add_sub_cancel_left .., fun hm => ?_, fun hneed => ?_⟩
    · have := (hrun.all hm).2.1
      omega
    · exact hrun.le.antisymm (not_lt.1 fun hlt => absurd (hrun.short hlt).2.2.1 (not_lt.2 hneed))
  have hres : ∀ src, ∃ r s', writei k src off n s = .ok (r, s') ∧
      (0 ≤ r → r = n.toNat ∧ off.toNat ≤ (s.icache k).size.toNat ∧
        off.toNat + n.toNat ≤ MAXFILE * BSIZE) ∧
      (off.toNat ≤ (s.icache k).size.toNat → off.toNat + n.toNat ≤ MAXFILE * BSIZE → 0 ≤ r) := by
    intro src
    exact exists_ok_of_wp (wp_writei (Q := fun r _ =>
      (0 ≤ r → r = n.toNat ∧ off.toNat ≤ (s.icache k).size.toNat ∧
        off.toNat + n.toNat ≤ MAXFILE * BSIZE) ∧
      (off.toNat ≤ (s.icache k).size.toNat → off.toNat + n.toNat ≤ MAXFILE * BSIZE →
        0 ≤ r)) h hk hdev
      (fun hbad => ⟨fun hc => by omega, fun h1 h2 => by
        simp only [MAXFILE, BSIZE] at *; omega⟩)
      fun m s' h1 h2 _ => ⟨fun _ => ⟨rfl, h1, h2⟩, fun _ _ => by omega⟩)
  refine ⟨fun hall h1 h2 => ?_, fun hcond src r s' hok hr => ?_⟩
  · obtain ⟨r, s', hok, hr, hr'⟩ := hres fun _ => 0
    obtain ⟨m, hm, hiff⟩ := hloop (fun _ => 0) h2
    have := hall _ r s' hok (hr' h1 h2)
    have := (hr (hr' h1 h2)).1
    exact hiff.1 (by omega)
  · obtain ⟨r', s'', hok', hr'⟩ := hres src
    rw [hok] at hok'
    simp only [ok.injEq, Prod.mk.injEq] at hok'
    obtain ⟨rfl, rfl⟩ := hok'
    obtain ⟨rfl, h1, h2⟩ := hr'.1 hr
    obtain ⟨m, hm, hiff⟩ := hloop src h2
    rw [hm, hiff.2 (hcond h1 h2)]

/-- **When the result of a write can be trusted.**  For an open file on an inode that is
not a device, a result `n` of `filewrite` reports bytes that have been stored, for all
contents of the buffer, if and only if the write is `Lossless`: it is turned down,
or the blocks it needs are free.  A result of `writei` that is not negative is the
number of bytes copied if and only if the blocks needed are free, or the range is not
allowed. -/
theorem filewrite_reported (h : Inv s) (hlog : LOGSIZE ≤ s.sb.nlog.toNat)
    (hw : f.writable = true) (ht : f.type = .inode) (href : 0 < (s.icache f.ip).ref)
    (hl : (s.icache f.ip).locked = false) (hlive : Live s.sb s.cur (s.icache f.ip).inum)
    (hdev : (s.cur (s.icache f.ip).inum).type ≠ T_DEV) :
    (∀ n : ℕ, (∀ addr f' s', filewrite f addr n s = .ok ((n, f'), s') →
        Reported f addr n f' s') ↔
      Lossless s (s.cur (s.icache f.ip).inum) f.off.toNat n) ∧
    (s.Loaded f.ip → ∀ off n : UInt32,
      (∀ src r s', writei f.ip src off n s = .ok (r, s') → 0 ≤ r → r = copied f.ip src off n s) ↔
      (off.toNat ≤ (s.icache f.ip).size.toNat → off.toNat + n.toNat ≤ MAXFILE * BSIZE →
        need s f.ip off.toNat n.toNat ≤ s.free)) := by
  refine ⟨fun n => ?_, fun hk off n => writei_copied_iff h hk ?_ off n⟩
  · rcases Nat.eq_zero_or_pos n with rfl | hn
    · rw [Lossless, if_pos rfl]
      exact reported_zero_iff h hw ht href hl hlive hdev
    · obtain ⟨hinv, hcur, hload, hself⟩ := h.ready hlive href
      have hiff := reported_pos_iff hinv hw ht hload (by rw [hself])
        (by rw [hself]; exact hdev) hlog hn
      rw [Lossless, if_neg hn.ne']
      simp only [filewrite_ready h hw ht href hl hlive _ hn]
      rw [hiff, hself, need, hself]
      exact Iff.rfl
  · rw [← show (s.cur (s.icache f.ip).inum).type = (s.icache f.ip).type by
      rw [h.coh.cur_loaded hk]]
    exact hdev

end Reported

/-- A writable open file on entry 0. -/
def openFile : File where
  type := .inode
  ref := 1
  readable := false
  writable := true
  pipe := ⟨fun _ => (-1, []), fun _ _ => -1⟩
  ip := 0
  off := 0

/-- The hypotheses of `filewrite_reported` are satisfiable: on a disk with free blocks, a
byte written to an empty file is stored when it is reported. -/
theorem filewrite_reported_emptyFile :
    Inv (oneFile emptyGroup emptyFile) ∧
    ∀ addr f' s', filewrite openFile addr (1 : ℕ) (oneFile emptyGroup emptyFile) =
      .ok (((1 : ℕ), f'), s') → Reported openFile addr 1 f' s' := by
  have hinv := inv_emptyFile emptyGroup (by decide +kernel)
  have hk : (oneFile emptyGroup emptyFile).Loaded 0 := oneFile_loaded.2 rfl
  have hic := @oneFile_icache emptyGroup emptyFile
  have hiff := (filewrite_reported (f := openFile) hinv (by decide) rfl rfl hk.1
    (by rw [show openFile.ip = 0 from rfl, hic]) (hinv.live hk)
    (by rw [show openFile.ip = 0 from rfl, hinv.coh.cur_loaded hk, hic]; decide)).1 1
  refine ⟨hinv, hiff.2 ?_⟩
  rw [Lossless, if_neg (by decide)]
  exact fun _ => (needOf_le _ _ _).trans (le_trans (by decide +kernel) (free_oneFile _))

/-- All blocks are used. -/
theorem free_fullDisk : (oneFile (fun _ => 0xff) emptyFile).free = 0 := by
  have hbits : ∀ k < 200, Buf.bit (fun _ => 0xff : Block) k = true := by decide +kernel
  refine Finset.card_eq_zero.2 (Finset.eq_empty_of_forall_notMem fun b hb => ?_)
  have hused := (mem_freeBlocks.1 hb).2
  rw [show (oneFile (fun _ => 0xff) emptyFile).sb = Mkfs.sb from rfl, usedBit, oneFile_bitmap,
    show Mkfs.sb.bpg.toNat = 200 by decide, hbits _ (mod_lt _ (by decide))] at hused
  exact Bool.noConfusion hused

/-- **A byte written to an empty file on a full disk** is reported as stored. -/
theorem filewrite_fullDisk :
    Inv (oneFile (fun _ => 0xff) emptyFile) ∧
    ∃ addr f' s', filewrite openFile addr (1 : ℕ) (oneFile (fun _ => 0xff) emptyFile) =
      .ok (((1 : ℕ), f'), s') ∧ ¬ Reported openFile addr 1 f' s' := by
  have hinv := inv_emptyFile (fun _ => 0xff) (by decide +kernel)
  have hk : (oneFile (fun _ => 0xff) emptyFile).Loaded 0 := oneFile_loaded.2 rfl
  have hic := @oneFile_icache (fun _ => 0xff) emptyFile
  have hiff := reported_pos_iff (f := openFile) (n := 1) hinv rfl rfl hk
    (by rw [show openFile.ip = 0 from rfl, hic])
    (by rw [show openFile.ip = 0 from rfl, hic]; decide) (by decide) (by decide)
  refine ⟨hinv, ?_⟩
  by_contra hno
  push Not at hno
  have hret := (returns_of_le (n := 1) (by decide) (oneFile (fun _ => 0xff) emptyFile) emptyFile
    0).2 ⟨zero_le _, by decide⟩
  have hneed := hiff.1 hno (by rw [show openFile.ip = 0 from rfl, hic]; exact hret)
  rw [free_fullDisk, le_zero, need, needOf_eq_zero] at hneed
  refine hneed 0 (by decide +kernel) ?_
  rw [show openFile.ip = 0 from rfl, hic]
  exact holds_eq_zero fun _ => rfl

end Xv6.Fs
