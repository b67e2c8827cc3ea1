/-
# A crash never leaves half a transaction

`log.c`: "the real commit" is the write of the header.  `Redo r d D` says that
the disk `d`, as a crash may have left it, stands for the contents `D` of the
blocks outside the log: `D` is `d` with every block named by the header
replaced by its copy in the log.  The relation depends on the header alone for
what the log region means, and three facts carry the whole argument:

* writing `D`'s own values home keeps it (`Redo.home`), which is what
  `install_trans` does, in `commit` and in every run of `recover_from_log`;
* with an empty header the log blocks may be overwritten (`Redo.scratch`),
  which is what `write_log` does;
* the one write that changes `D` is the header write of `commit`
  (`Redo.publish`), and it changes it by the whole transaction.

So after any prefix of the writes of a commit the disk stands for the contents
before the transaction or for those after it, and a recovery cut short any
number of times does not change what it stands for.
-/

import Xv6.Log.Commit

namespace Xv6.Log

open Lib List

variable {r : Region} {d D : Disk}

/-- The disk `d` stands for the contents `D` outside the log. -/
structure Redo (r : Region) (d D : Disk) : Prop where
  /-- The header names distinct blocks, -/
  nodup : (readHead (d r.start)).Nodup
  /-- as many as the log has room for, -/
  room : (readHead (d r.start)).length < r.size
  /-- outside the log. -/
  outside : ∀ b ∈ readHead (d r.start), ¬ r.Mem b.toNat
  /-- A block the header names is in the log. -/
  logged : ∀ i (h : i < (readHead (d r.start)).length),
    D (readHead (d r.start))[i].toNat = d (r.start + i + 1)
  /-- Every other block is at home. -/
  other : ∀ x, ¬ r.Mem x → (∀ b ∈ readHead (d r.start), b.toNat ≠ x) → D x = d x

/-- A clean log stands for the blocks at home. -/
theorem Redo.of_clean (hr : 0 < r.size) (h : readHead (d r.start) = [])
    (hD : ∀ x, ¬ r.Mem x → D x = d x) : Redo r d D where
  nodup := by simp [h]
  room := by simpa [h] using hr
  outside := by simp [h]
  logged i hi := by simp [h] at hi
  other x hx _ := hD x hx

variable (hd : Redo r d D)

include hd

theorem Redo.eq_of_clean (h : readHead (d r.start) = []) {x : ℕ}
    (hx : ¬ r.Mem x) : D x = d x := hd.other x hx (by simp [h])

/-- The start of the log is in it. -/
theorem Redo.start_mem : r.Mem r.start :=
  ⟨le_rfl, by have := hd.room; omega⟩

/-- **Installing keeps what the disk stands for.**  Writes of `D`'s own values
to blocks outside the log touch neither the header nor the log blocks. -/
theorem Redo.home {ws : List (ℕ × Block)}
    (hws : ∀ w ∈ ws, ¬ r.Mem w.1 ∧ w.2 = D w.1) : Redo r (applyWrites d ws) D := by
  have hin : ∀ x, r.Mem x → applyWrites d ws x = d x := fun x hx =>
    applyWrites_of_notMem fun w hw he => (hws w hw).1 (he ▸ hx)
  have hh : applyWrites d ws r.start = d r.start := hin _ hd.start_mem
  constructor <;> rw [hh]
  · exact hd.nodup
  · exact hd.room
  · exact hd.outside
  · intro i hi
    have := hd.room
    rw [hd.logged i hi, hin _ ⟨by omega, by omega⟩]
  · intro x hx hn
    exact (applyWrites_agree (fun w hw => (hws w hw).2) (hd.other x hx hn).symm).symm

/-- Once every block is at home the header may be cleared. -/
theorem Redo.clear (h : ∀ x, ¬ r.Mem x → D x = d x) : Redo r (afterHead r [] d) D := by
  refine Redo.of_clean (by have := hd.room; omega) (readHead_afterHead (by simp) d) fun x hx => ?_
  have hne : x ≠ r.start := by
    rintro rfl
    exact hx hd.start_mem
  rw [h x hx, afterHead_of_ne hne]

/-- With a clean header, writes into the log past the header change nothing. -/
theorem Redo.scratch (hc : readHead (d r.start) = []) {ws : List (ℕ × Block)}
    (hws : ∀ w ∈ ws, r.Mem w.1 ∧ w.1 ≠ r.start) :
    Redo r (applyWrites d ws) D ∧ readHead (applyWrites d ws r.start) = [] := by
  have hh : readHead (applyWrites d ws r.start) = [] := by
    rw [applyWrites_of_notMem fun w hw => (hws w hw).2, hc]
  refine ⟨Redo.of_clean (by have := hd.room; omega) hh fun x hx => ?_, hh⟩
  rw [hd.eq_of_clean hc hx, applyWrites_of_notMem]
  rintro w hw rfl
  exact hx (hws w hw).1

omit hd

/-! ### Installing and recovering -/

/-- `install_trans` over blocks outside the log reads each log block as the
disk had it at the start. -/
theorem mem_installTrans {w : ℕ × Block} :
    ∀ {lh : List UInt32} {tail : ℕ} {d : Disk}, tail + lh.length < r.size →
      (∀ b ∈ lh, ¬ r.Mem b.toNat) → w ∈ installTrans r tail lh d →
        ∃ i, ∃ h : i < lh.length, w = (lh[i].toNat, d (r.start + (tail + i) + 1))
  | b :: bs, tail, d, hr, hout, hw => by
    rw [length_cons] at hr
    rcases mem_cons.1 hw with rfl | hw
    · exact ⟨0, by simp, rfl⟩
    · obtain ⟨i, hi, rfl⟩ := mem_installTrans (by omega)
        (fun c hc => hout c (mem_cons_of_mem _ hc)) hw
      refine ⟨i + 1, by simpa using hi, ?_⟩
      have hne : r.start + (tail + 1 + i) + 1 ≠ b.toNat := fun he =>
        hout b mem_cons_self (he ▸ ⟨by omega, by omega⟩)
      rw [Function.update_of_ne hne, getElem_cons_succ,
        show tail + 1 + i = tail + (i + 1) by omega]

theorem map_fst_installTrans :
    ∀ (lh : List UInt32) (tail : ℕ) (d : Disk),
      (installTrans r tail lh d).map Prod.fst = lh.map UInt32.toNat
  | [], _, _ => rfl
  | b :: bs, tail, d => by simp [installTrans, map_fst_installTrans bs]

/-- **Installing is harmless at every point and complete at its end**: after any
prefix of `install_trans` and the clearing of the header, the disk stands for
the same contents, and at the end they are all at home under a clean header. -/
theorem Redo.along_installAndClear (hd : Redo r d D) :
    Along (Redo r · D) d (installAndClear r (readHead (d r.start)) d) ∧
      readHead (applyWrites d (installAndClear r (readHead (d r.start)) d) r.start) = [] := by
  have hmem : ∀ w ∈ installTrans r 0 (readHead (d r.start)) d, ¬ r.Mem w.1 ∧ w.2 = D w.1 := by
    intro w hw
    obtain ⟨i, hi, rfl⟩ := mem_installTrans (by have := hd.room; omega) hd.outside hw
    have hout := hd.outside _ (getElem_mem hi)
    dsimp only
    rw [Nat.zero_add, hd.logged i hi]
    exact ⟨hout, rfl⟩
  have hall := hd.home hmem
  have hhome : ∀ x, ¬ r.Mem x → D x =
    applyWrites d (installTrans r 0 (readHead (d r.start)) d) x := by
    intro x hx
    by_cases hn : ∃ w ∈ installTrans r 0 (readHead (d r.start)) d, w.1 = x
    · exact (applyWrites_agree_of_mem (fun w hw => (hmem w hw).2) hn).symm
    · have hn' : ∀ b ∈ readHead (d r.start), b.toNat ≠ x := by
        intro b hb he
        have : x ∈ (installTrans r 0 (readHead (d r.start)) d).map Prod.fst := by
          rw [map_fst_installTrans, ← he]
          exact mem_map_of_mem hb
        obtain ⟨w, hw, rfl⟩ := mem_map.1 this
        exact hn ⟨w, hw, rfl⟩
      exact (applyWrites_agree (fun w hw => (hmem w hw).2) (hd.other x hx hn').symm).symm
  have hclear := hall.clear hhome
  constructor
  · rw [installAndClear, along_append, along_singleton, ← afterHead]
    exact ⟨fun k => hd.home fun w hw => hmem w (mem_of_mem_take hw), hall, hclear⟩
  · rw [installAndClear, applyWrites_append, ← afterHead]
    exact readHead_afterHead (by simp) _

/-! ### Committing -/

/-- A transaction: the home blocks it writes, with their new contents.  The
bounds are those `log_write` and the in-memory header keep. -/
structure Txn (r : Region) where
  writes : List (UInt32 × Block)
  /-- `log_write` absorbs a second write of a block, -/
  nodup : (writes.map Prod.fst).Nodup
  /-- keeps `lh.n <= log.size - 1` -/
  room : writes.length < r.size
  /-- and `lh.n <= LOGSIZE`, the length of `lh.block`; -/
  fits : writes.length ≤ LOGSIZE
  /-- no file-system block is in the log. -/
  outside : ∀ w ∈ writes, ¬ r.Mem w.1.toNat

/-- The block numbers `log.lh` holds. -/
def Txn.lh (t : Txn r) : List UInt32 := t.writes.map Prod.fst

/-- The contents outside the log after the whole transaction. -/
def Txn.apply (t : Txn r) (D : Disk) : Disk :=
  applyWrites D (t.writes.map fun w => (w.1.toNat, w.2))

/-- The writes of the commit of `t` on the disk `d`: the buffer cache holds the
new contents of the blocks of `t` and agrees with the disk elsewhere. -/
def Txn.commit (t : Txn r) (d : Disk) : List (ℕ × Block) := Log.commit r (t.apply d) t.lh d

theorem Txn.apply_lh (t : Txn r) (D : Disk) {i : ℕ} (hi : i < t.lh.length) (D' : Disk) :
    t.apply D t.lh[i].toNat = t.apply D' t.lh[i].toNat := by
  have hl : i < t.writes.length := by simpa [Txn.lh] using hi
  have hnd : ((t.writes.map fun w => (w.1.toNat, w.2)).map Prod.fst).Nodup := by
    rw [map_map, show Prod.fst ∘ (fun w : UInt32 × Block => (w.1.toNat, w.2)) =
      UInt32.toNat ∘ Prod.fst from rfl, ← map_map]
    exact t.nodup.map fun a b h => UInt32.toNat_inj.1 h
  have hm : (t.lh[i].toNat, t.writes[i].2) ∈ t.writes.map fun w => (w.1.toNat, w.2) :=
    mem_map.2 ⟨t.writes[i], getElem_mem hl, by simp [Txn.lh]⟩
  rw [Txn.apply, applyWrites_of_mem hnd hm, Txn.apply, applyWrites_of_mem hnd hm]

theorem Txn.apply_of_notMem (t : Txn r) (D : Disk) {x : ℕ} (hx : ∀ b ∈ t.lh, b.toNat ≠ x) :
    t.apply D x = D x := by
  refine applyWrites_of_notMem fun w hw => ?_
  obtain ⟨v, hv, rfl⟩ := mem_map.1 hw
  exact hx v.1 (mem_map.2 ⟨v, hv, rfl⟩)

theorem mem_writeLog {cache : Disk} {w : ℕ × Block} :
    ∀ {lh : List UInt32} {tail : ℕ}, w ∈ writeLog r cache tail lh →
      r.start + tail < w.1 ∧ w.1 ≤ r.start + tail + lh.length
  | b :: bs, tail, hw => by
    rw [length_cons]
    rcases mem_cons.1 hw with rfl | hw
    · simp only
      omega
    · have := mem_writeLog hw
      omega

/-- After `write_log`, log block `i` holds the cached contents of `block[i]`. -/
theorem applyWrites_writeLog (cache : Disk) :
    ∀ (lh : List UInt32) (tail : ℕ) (d : Disk) (i : ℕ) (hi : i < lh.length),
      applyWrites d (writeLog r cache tail lh) (r.start + (tail + i) + 1) = cache lh[i].toNat
  | b :: bs, tail, d, 0, _ => by
    rw [writeLog, applyWrites_cons, applyWrites_of_notMem]
    · exact Function.update_self ..
    · intro w hw
      have := mem_writeLog hw
      omega
  | b :: bs, tail, d, i + 1, hi => by
    rw [writeLog, applyWrites_cons, show tail + (i + 1) = tail + 1 + i by omega,
      applyWrites_writeLog cache bs (tail + 1) _ i (by simpa using hi)]
    rfl

/-- **The header write is the commit.**  On a clean log whose blocks hold the
contents of `t`, writing the header adds the whole of `t`. -/
theorem Redo.publish (hd : Redo r d D) (hc : readHead (d r.start) = []) (t : Txn r)
    (hlog : ∀ i (h : i < t.lh.length), d (r.start + i + 1) = t.apply D t.lh[i].toNat) :
    Redo r (afterHead r t.lh d) (t.apply D) := by
  have hlen : t.lh.length = t.writes.length := by simp [Txn.lh]
  have hh : readHead (afterHead r t.lh d r.start) = t.lh := readHead_afterHead (hlen ▸ t.fits) d
  constructor <;> rw [hh]
  · exact t.nodup
  · exact hlen ▸ t.room
  · intro b hb
    obtain ⟨w, hw, rfl⟩ := mem_map.1 hb
    exact t.outside w hw
  · intro i hi
    rw [afterHead_of_ne (by omega), hlog i hi]
  · intro x hx hn
    have hne : x ≠ r.start := by
      rintro rfl
      exact hx hd.start_mem
    rw [afterHead_of_ne hne, t.apply_of_notMem D hn, hd.eq_of_clean hc hx]

/-- **A commit is atomic at every point.**  From a clean log standing for `D`,
after any prefix of the writes of the commit of `t` the disk stands for `D` or
for `D` with the whole of `t`; at the end it is the latter and the log is clean
again. -/
theorem Redo.along_commit (hd : Redo r d D) (hc : readHead (d r.start) = []) (t : Txn r) :
    Along (fun d' => Redo r d' D ∨ Redo r d' (t.apply D)) d (t.commit d) ∧
      Redo r (applyWrites d (t.commit d)) (t.apply D) ∧
        readHead (applyWrites d (t.commit d) r.start) = [] := by
  unfold Txn.commit commit
  by_cases hn : 0 < t.lh.length
  · rw [if_pos hn]
    have hlen : t.lh.length = t.writes.length := by simp [Txn.lh]
    have hscr : ∀ w ∈ writeLog r (t.apply d) 0 t.lh, r.Mem w.1 ∧ w.1 ≠ r.start := by
      intro w hw
      have h1 := mem_writeLog hw
      have h2 := t.room
      exact ⟨⟨by omega, by omega⟩, by omega⟩
    have hlog := hd.scratch hc hscr
    have hpub := hlog.1.publish hlog.2 t fun i hi => by
      have := applyWrites_writeLog (r := r) (t.apply d) t.lh 0 d i hi
      rw [Nat.zero_add] at this
      rw [this, t.apply_lh d hi D]
    have hinst := hpub.along_installAndClear
    rw [readHead_afterHead (hlen ▸ t.fits)] at hinst
    refine ⟨?_, ?_, ?_⟩
    · rw [along_append, along_append, along_singleton, applyWrites_append, ← afterHead]
      refine ⟨⟨fun k => Or.inl (hd.scratch hc fun w hw => hscr w (mem_of_mem_take hw)).1,
        Or.inl hlog.1, Or.inr hpub⟩, hinst.1.mono fun _ => Or.inr⟩
    · rw [applyWrites_append, applyWrites_append, ← afterHead]
      exact hinst.1.last
    · rw [applyWrites_append, applyWrites_append, ← afterHead]
      exact hinst.2
  · have hnil : t.writes = [] := by
      have : t.lh.length = 0 := by omega
      simpa [Txn.lh] using this
    have happ : t.apply D = D := by simp [Txn.apply, hnil]
    rw [if_neg hn, along_nil, happ]
    exact ⟨Or.inl hd, hd, hc⟩

end Xv6.Log
