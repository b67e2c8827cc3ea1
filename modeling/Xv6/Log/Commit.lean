/-
# The on-disk log: commit and recovery

`log.c`.  The log region of the disk is `[log.start, log.start + log.size)`:
the header block at `log.start`, then the logged blocks.  The header holds a
count `n` and the home block numbers `block[0..n)`; the block logged for
`block[tail]` is at `log.start + tail + 1`.

A function that writes the disk is modelled by the list of its block writes,
in order, as they depend on the disk it starts from: `write_log`, `write_head`,
`install_trans`, `commit` and `recover_from_log`.  A crash keeps a prefix of
the list.  The in-memory header `log.lh` is the list of its first `n` block
numbers; the buffer cache a commit copies from is a map from block numbers to
contents.
-/

import Xv6.Param
import Xv6.Lib.Writes

namespace Xv6.Log

open Function Lib

/-- `log.start` and `log.size`. -/
structure Region where
  start : ℕ
  size : ℕ

/-- Block `b` lies in the log region. -/
def Region.Mem (r : Region) (b : ℕ) : Prop := r.start ≤ b ∧ b < r.start + r.size

instance (r : Region) (b : ℕ) : Decidable (r.Mem b) := inferInstanceAs (Decidable (_ ∧ _))

/-- `read_head`: the block numbers of the header block, `n` taken as an `int`. -/
def readHead (hb : Block) : List UInt32 :=
  (List.range (hb.getU32 0).toInt32.toNatClampNeg).map fun i => hb.getU32 (4 + 4 * i)

/-- The loop of `write_head`: `hb->block[i] = log.lh.block[i]`, from index `i`. -/
def putEntries : ℕ → List UInt32 → Block → Block
  | _, [], hb => hb
  | i, b :: bs, hb => putEntries (i + 1) bs (hb.putU32 (4 + 4 * i) b)

/-- `write_head`: the header block after `hb->n = log.lh.n` and the loop over
the entries; the bytes past them stay as they were. -/
def writeHead (lh : List UInt32) (hb : Block) : Block :=
  putEntries 0 lh (hb.putU32 0 (UInt32.ofNat lh.length))

/-- `write_log`, from `tail` on: cache block `block[tail]` to the log. -/
def writeLog (r : Region) (cache : Disk) : ℕ → List UInt32 → List (ℕ × Block)
  | _, [] => []
  | tail, b :: bs => (r.start + tail + 1, cache b.toNat) :: writeLog r cache (tail + 1) bs

/-- `install_trans`, from `tail` on: each log block, read from the disk as the
earlier writes left it, to its home. -/
def installTrans (r : Region) : ℕ → List UInt32 → Disk → List (ℕ × Block)
  | _, [], _ => []
  | tail, b :: bs, d =>
      (b.toNat, d (r.start + tail + 1)) ::
        installTrans r (tail + 1) bs (update d b.toNat (d (r.start + tail + 1)))

/-- The write of `write_head` on the disk `d`. -/
def headWrite (r : Region) (lh : List UInt32) (d : Disk) : ℕ × Block :=
  (r.start, writeHead lh (d r.start))

/-- The disk after `write_head`. -/
def afterHead (r : Region) (lh : List UInt32) (d : Disk) : Disk :=
  applyWrites d [headWrite r lh d]

/-- `install_trans` and the clearing of the header, which end both `commit` and
`recover_from_log`. -/
def installAndClear (r : Region) (lh : List UInt32) (d : Disk) : List (ℕ × Block) :=
  installTrans r 0 lh d ++ [headWrite r [] (applyWrites d (installTrans r 0 lh d))]

/-- `commit`: `write_log`, `write_head`, `install_trans`, `write_head` with
`n = 0`; nothing when the transaction is empty. -/
def commit (r : Region) (cache : Disk) (lh : List UInt32) (d : Disk) : List (ℕ × Block) :=
  if 0 < lh.length then
    let d₁ := applyWrites d (writeLog r cache 0 lh)
    writeLog r cache 0 lh ++ [headWrite r lh d₁] ++ installAndClear r lh (afterHead r lh d₁)
  else []

/-- `recover_from_log`: `read_head`, `install_trans`, `write_head` with `n = 0`. -/
def recoverFromLog (r : Region) (d : Disk) : List (ℕ × Block) :=
  installAndClear r (readHead (d r.start)) d

/-! ### The header block -/

theorem getU32_putEntries_of_lt {off : ℕ} :
    ∀ {bs : List UInt32} {i : ℕ} {hb : Block}, off + 4 ≤ 4 + 4 * i →
      (putEntries i bs hb).getU32 off = hb.getU32 off
  | [], _, _, _ => rfl
  | b :: bs, i, hb, h => by
    rw [putEntries, getU32_putEntries_of_lt (by omega), Buf.getU32_putU32_of_ne (by omega)]

theorem getU32_putEntries :
    ∀ (bs : List UInt32) (i j : ℕ) (hb : Block) (hj : j < bs.length), i + bs.length ≤ LOGSIZE →
      (putEntries i bs hb).getU32 (4 + 4 * (i + j)) = bs[j]
  | b :: bs, i, j, hb, hj, h => by
    simp only [List.length_cons, LOGSIZE] at hj h
    rw [putEntries]
    cases j with
    | zero =>
      rw [getU32_putEntries_of_lt (by omega), Nat.add_zero,
        Buf.getU32_putU32 (by simp only [BSIZE]; omega)]
      rfl
    | succ j =>
      rw [show i + (j + 1) = i + 1 + j by omega,
        getU32_putEntries bs (i + 1) j _ (by omega) (by simp only [LOGSIZE]; omega)]
      rfl

variable {lh : List UInt32}

/-- **The header block reads back**: what `write_head` stores, `read_head`
reads, whatever the block held before. -/
theorem readHead_writeHead (h : lh.length ≤ LOGSIZE) (hb : Block) :
    readHead (writeHead lh hb) = lh := by
  have hn : ((writeHead lh hb).getU32 0).toInt32.toNatClampNeg = lh.length := by
    have h0 : (writeHead lh hb).getU32 0 = UInt32.ofNat lh.length := by
      rw [writeHead, getU32_putEntries_of_lt (by omega), Buf.getU32_putU32 (by simp)]
    have h1 : ∀ n : Fin 31, (UInt32.ofNat n.val).toInt32.toNatClampNeg = n.val := by decide
    rw [h0]
    exact h1 ⟨lh.length, by simp only [LOGSIZE] at h; omega⟩
  refine List.ext_getElem (by simp [readHead, hn]) fun j h1 h2 => ?_
  have := getU32_putEntries lh 0 j (hb.putU32 0 (UInt32.ofNat lh.length)) h2
    (by rw [Nat.zero_add]; exact h)
  rw [Nat.zero_add] at this
  simpa [readHead, writeHead] using this

theorem readHead_afterHead {r : Region} (h : lh.length ≤ LOGSIZE) (d : Disk) :
    readHead (afterHead r lh d r.start) = lh := by
  rw [afterHead, applyWrites_cons, applyWrites_nil, headWrite, update_self, readHead_writeHead h]

theorem afterHead_of_ne {r : Region} {d : Disk} {x : ℕ} (h : x ≠ r.start) :
    afterHead r lh d x = d x := by
  rw [afterHead, applyWrites_cons, applyWrites_nil, headWrite, update_of_ne h]

end Xv6.Log
