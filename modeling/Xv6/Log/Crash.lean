/-
# Runs of commits, crashes and recoveries

A run commits transactions one after the other and crashes after some number
`k` of disk writes, anywhere in them.  After the crash `recover_from_log` runs,
is itself cut after any prefix of its writes, any number of times, and is at
last run to its end.  `recover_after_crash` says what the disk then holds: the
transactions whose commit was completed before the crash, and the interrupted
one wholly or not at all.

The log is clean again at the end, so the theorem applies to the next run of
commits as well.
-/

import Xv6.Log.Recovery

namespace Xv6.Log

open Lib

variable {r : Region} {D d : Disk}

/-- The writes of the commits of `ts`, each on the disk the earlier ones left. -/
def commitAll : List (Txn r) → Disk → List (ℕ × Block)
  | [], _ => []
  | t :: ts, d => t.commit d ++ commitAll ts (applyWrites d (t.commit d))

/-- The contents after all of `ts`. -/
def applyAll (ts : List (Txn r)) (D : Disk) : Disk := ts.foldl (fun D t => t.apply D) D

/-- The disk after runs of `recover_from_log` cut short after `ks` writes. -/
def cutRecoveries (r : Region) (d : Disk) (ks : List ℕ) : Disk :=
  ks.foldl (fun d k => applyWrites d ((recoverFromLog r d).take k)) d

/-- The disk after a completed `recover_from_log`. -/
def recovered (r : Region) (d : Disk) : Disk := applyWrites d (recoverFromLog r d)

/-- Recoveries cut short do not change what the disk stands for. -/
theorem Redo.cutRecoveries (hd : Redo r d D) (ks : List ℕ) :
    Redo r (cutRecoveries r d ks) D := by
  unfold Log.cutRecoveries
  induction ks generalizing d with
  | nil => exact hd
  | cons k ks ih => exact ih (hd.along_installAndClear.1 k)

/-- A completed recovery brings home what the disk stands for. -/
theorem Redo.recovered (hd : Redo r d D) :
    readHead (recovered r d r.start) = [] ∧ ∀ x, ¬ r.Mem x → recovered r d x = D x := by
  obtain ⟨halong, hclean⟩ := hd.along_installAndClear
  exact ⟨hclean, fun x hx => (halong.last.eq_of_clean hclean hx).symm⟩

/-- **After a crash in a run of commits the disk stands for a prefix of them.**
`c` is the number of commits completed within the first `k` writes. -/
theorem Redo.take_commitAll (hd : Redo r d D) (hc : readHead (d r.start) = [])
    (ts : List (Txn r)) (k : ℕ) :
    ∃ c ≤ ts.length, (commitAll (ts.take c) d).length ≤ k ∧
      (c < ts.length → k < (commitAll (ts.take (c + 1)) d).length) ∧
        ∃ j, (j = c ∨ j = c + 1 ∧ c < ts.length) ∧
          Redo r (applyWrites d ((commitAll ts d).take k)) (applyAll (ts.take j) D) := by
  induction ts generalizing d D k with
  | nil =>
    exact ⟨0, le_rfl, by simp [commitAll], by simp, 0, Or.inl rfl,
      by simpa [commitAll, applyAll] using hd⟩
  | cons t ts ih =>
    obtain ⟨halong, hall, hclean⟩ := hd.along_commit hc t
    by_cases hk : k < (t.commit d).length
    · refine ⟨0, by simp, by simp [commitAll], fun _ => by simpa [commitAll] using hk, ?_⟩
      have htake : (commitAll (t :: ts) d).take k = (t.commit d).take k := by
        rw [commitAll, List.take_append_of_le_length hk.le]
      rw [htake]
      rcases halong k with h | h
      · exact ⟨0, Or.inl rfl, h⟩
      · exact ⟨1, Or.inr ⟨rfl, by simp⟩, h⟩
    · obtain ⟨m, rfl⟩ := Nat.exists_eq_add_of_le (Nat.not_lt.1 hk)
      obtain ⟨c, hcl, hdone, hnext, j, hj, hredo⟩ := ih hall hclean m
      refine ⟨c + 1, by simpa using hcl, by simpa [commitAll] using hdone,
        fun h => by simpa [commitAll] using hnext (by simpa using h), j + 1, by simpa using hj, ?_⟩
      rw [commitAll, List.take_length_add_append, applyWrites_append]
      exact hredo

/-- **Crash atomicity of the redo log.**  From a disk with a clean log, commit
the transactions `ts` and crash after `k` disk writes; run `recover_from_log`,
cut short after each of the counts `ks`, and then to its end.  The log is clean
again, and every block outside it holds what the first `j` transactions leave:
those whose commit was completed before the crash (`c` of them), and the
interrupted one entirely or not at all. -/
theorem recover_after_crash (r : Region) (hr : 0 < r.size) (d : Disk)
    (hc : readHead (d r.start) = []) (ts : List (Txn r)) (k : ℕ) (ks : List ℕ) :
    let crashed := applyWrites d ((commitAll ts d).take k)
    let final := recovered r (cutRecoveries r crashed ks)
    ∃ c ≤ ts.length, (commitAll (ts.take c) d).length ≤ k ∧
      (c < ts.length → k < (commitAll (ts.take (c + 1)) d).length) ∧
        readHead (final r.start) = [] ∧
          ∃ j, (j = c ∨ j = c + 1 ∧ c < ts.length) ∧
            ∀ x, ¬ r.Mem x → final x = applyAll (ts.take j) d x := by
  intro crashed final
  obtain ⟨c, hcl, hdone, hnext, j, hj, hredo⟩ :=
    (Redo.of_clean hr hc fun _ _ => rfl).take_commitAll hc ts k
  have hrec := (hredo.cutRecoveries ks).recovered
  exact ⟨c, hcl, hdone, hnext, hrec.1, j, hj, hrec.2⟩

/-- One transaction on the geometry of `mkfs`: block 100 becomes all ones. -/
def exampleTxn : Txn ⟨2, 30⟩ where
  writes := [(100, fun _ => 0xff)]
  nodup := by simp
  room := by simp
  fits := by simp
  outside := by simp [Region.Mem]

/-- The hypotheses of `recover_after_crash` are satisfiable: on a zeroed disk
the log is clean; here the crash cuts the commit after the header write and
the first recovery after one write. -/
theorem recover_after_crash_zeroed :
    readHead ((fun _ => Buf.zero : Disk) 2) = [] ∧
      ∃ c ≤ 1, ∃ j, (j = c ∨ j = c + 1 ∧ c < 1) ∧ ∀ x, ¬ Region.Mem ⟨2, 30⟩ x →
        recovered ⟨2, 30⟩ (cutRecoveries ⟨2, 30⟩ (applyWrites (fun _ => Buf.zero)
          ((commitAll [exampleTxn] fun _ => Buf.zero).take 2)) [1]) x =
            applyAll ([exampleTxn].take j) (fun _ => Buf.zero) x := by
  have hc : readHead ((fun _ => Buf.zero : Disk) 2) = [] := by
    rw [readHead, Buf.getU32_zero]
    rfl
  obtain ⟨c, hcl, -, -, -, j, hj, h⟩ :=
    recover_after_crash ⟨2, 30⟩ (by decide) (fun _ => Buf.zero) hc [exampleTxn] 2 [1]
  exact ⟨hc, c, hcl, j, hj, h⟩

end Xv6.Log
