/-
# Files are byte arrays

`writei` and `readi` of `fs.c` implement a byte array of at most `MAXFILE * BSIZE`
bytes: a write overlays the bytes and moves the end, a read returns them, and the
other files keep theirs (`writei_overlays`).  There are two ways in which a
write of a file can come to nothing: the disk is full, or `log_write` panics
because the transaction gets too big.  A single call that writes 30 blocks does
that (`writei_too_big`), on any disk; `filewrite` does not make such calls.
-/

import Xv6.Fs.ReadWrite
import Xv6.Fs.Transaction

namespace Xv6.Fs

open Lib UInt32

/-- `log_write` panics with `msg` on the blocks that `m` passes to it. -/
def Refused {α : Type} (l : Log.State) (m : Prog State α) (s : State) (msg : String) : Prop :=
  ∃ a s', m s = .ok (a, s') ∧ replay l (s'.logged.drop s.logged.length) = .error msg

section Overlay

variable {s s' : State} {k : Slot} {src : ℕ → UInt8}

theorem NoHoles.size_le (h : NoHoles s k) : (s.icache k).size.toNat ≤ MAXFILE * BSIZE := by
  by_contra hlt
  exact h MAXFILE (not_le.1 hlt) (blockAddr_of_ge le_rfl)

/-- A write that stores all its bytes leaves no hole. -/
theorem NoHoles.wrote {off n : ℕ} (h : NoHoles s k) (hoff : off ≤ (s.icache k).size.toNat)
    (hmax : off + n ≤ MAXFILE * BSIZE) (hw : Wrote k src off n s n s') : NoHoles s' k := by
  intro bn hbn
  rw [hw.size] at hbn
  by_cases hold : bn * BSIZE < (s.icache k).size.toNat
  · rw [hw.keep bn (h bn hold)]
    exact h bn hold
  · refine hw.mapped bn (mem_touched.2 ?_)
    simp only [MAXFILE, BSIZE] at *
    omega

/-- **A read of a file without holes** returns its bytes and changes nothing. -/
theorem readi_eq (h : Inv s) (hk : s.Loaded k) (hty : (s.icache k).type ≠ T_DEV)
    (hno : NoHoles s k) {off n : UInt32} (hoff : off.toNat ≤ (s.icache k).size.toNat)
    (hn : off.toNat + n.toNat < 2 ^ 32) :
    readi k off n s = .ok (((min n.toNat ((s.icache k).size.toNat - off.toNat) : ℕ),
      (List.range (min n.toNat ((s.icache k).size.toNat - off.toNat))).map
        fun i => s.data k (off.toNat + i)), s) := by
  have hmax := hno.size_le
  have hwp : wp (readi k off n) (fun _ => False) (fun r s' => s' = s ∧
      r = (((min n.toNat ((s.icache k).size.toNat - off.toNat) : ℕ) : ℤ),
        (List.range (min n.toNat ((s.icache k).size.toNat - off.toNat))).map
          fun i => s.data k (off.toNat + i))) s := by
    refine wp_readi h hk hty (fun hc => by omega) fun m s' _ _ hm _ hsame => ?_
    have hm' : (ofNat m).toNat = m := by
      rw [toNat_ofNat', Nat.mod_eq_of_lt (by simp only [MAXFILE, BSIZE] at hmax; omega)]
    refine ⟨hsame fun x hx hx' => hno _ ?_, ?_⟩
    · simp only [BSIZE]; omega
    · rw [toInt_eq (by simp only [MAXFILE, BSIZE] at hmax; omega), hm', hm]
  obtain ⟨r, s', hok, rfl, rfl⟩ := exists_ok_of_wp hwp
  exact hok

/-- **Files are byte arrays.**  On a file without holes that is not a device, `writei`
returns unless `log_write` refuses its blocks; it rejects an offset past the end and
a range past the largest size without changing anything; and otherwise, unless the
disk is full, it returns `n`, the file has grown to hold the range and still has no
holes, every later `readi` returns the old bytes overlaid with `src`, and all other
files are as they were. -/
theorem writei_overlays (h : Inv s) (hk : s.Loaded k) (hty : (s.icache k).type ≠ T_DEV)
    (hno : NoHoles s k) (l : Log.State) (src : ℕ → UInt8) (off n : UInt32) :
    (∃ msg, Refused l (writei k src off n) s msg) ∨
    ∃ r s', inLog l (writei k src off n) s = .ok (r, s') ∧ (¬ RanOut s s' →
      if (s.icache k).size < off ∨ 2 ^ 32 ≤ off.toNat + n.toNat ∨
          MAXFILE * BSIZE < off.toNat + n.toNat then r = -1 ∧ s' = s
      else r = n.toNat ∧
        (s'.icache k).size.toNat = max (s.icache k).size.toNat (off.toNat + n.toNat) ∧
        NoHoles s' k ∧
        (∀ off' n' : UInt32, off' ≤ (s'.icache k).size → off'.toNat + n'.toNat < 2 ^ 32 →
          readi k off' n' s' =
            .ok (((min n'.toNat ((s'.icache k).size.toNat - off'.toNat) : ℕ),
              (List.range (min n'.toNat ((s'.icache k).size.toNat - off'.toNat))).map fun i =>
                overlaid (s.data k) src off.toNat n.toNat (off'.toNat + i)), s')) ∧
        ∀ i ≠ (s.icache k).inum, s'.cur i = s.cur i ∧
          (Live s.sb s.cur i → content s'.disk (s'.cur i) = content s.disk (s.cur i))) := by
  have hwp : wp (writei k src off n) (fun _ => False) (fun r s' => ¬ RanOut s s' →
      if (s.icache k).size < off ∨ 2 ^ 32 ≤ off.toNat + n.toNat ∨
          MAXFILE * BSIZE < off.toNat + n.toNat then r = -1 ∧ s' = s
      else r = n.toNat ∧ off.toNat ≤ (s.icache k).size.toNat ∧
        off.toNat + n.toNat ≤ MAXFILE * BSIZE ∧
        Wrote k src off.toNat n.toNat s n.toNat s') s := by
    refine wp_writei h hk hty (fun hbad _ => ?_) fun m s' hoff hmax hw hfull => ?_
    · rw [← lt_iff_toNat_lt] at hbad
      rw [if_pos hbad]
      exact ⟨rfl, rfl⟩
    · rw [if_neg (by
        rw [lt_iff_toNat_lt]; simp only [MAXFILE, BSIZE] at *; omega)]
      obtain rfl : m = n.toNat := hw.le.antisymm (not_lt.1 fun hlt => hfull (hw.short hlt).1)
      exact ⟨rfl, hoff, hmax, hw⟩
  obtain ⟨r, s', hok, hpost⟩ := exists_ok_of_wp hwp
  rcases hl : replay l (s'.logged.drop s.logged.length) with msg | l'
  · exact .inl ⟨msg, r, s', hok, hl⟩
  · refine .inr ⟨r, s', ?_, fun hfull => ?_⟩
    · rw [inLog_eq hok, hl]
    · have := hpost hfull
      split_ifs with hbad
      · rwa [if_pos hbad] at this
      · rw [if_neg hbad] at this
        obtain ⟨hr, hoff, hmax, hw⟩ := this
        have hno' := hno.wrote hoff hmax hw
        refine ⟨hr, hw.size, hno', fun off' n' hoff' hn' => ?_, fun i hi =>
          ⟨hw.cur i hi, hw.content hi⟩⟩
        rw [readi_eq hw.inv (hw.loaded hk) (hw.type_eq ▸ hty) hno'
          (le_iff_toNat_le.1 hoff') hn']
        simp only [hw.data]

end Overlay

/-- The bitmap of a group in which only the metadata blocks are used. -/
def emptyGroup : Block := fun i => if i.val = 0 then 0x1f else 0

/-- A file with no bytes. -/
def emptyFile : Dinode := { Dinode.zero with type := T_FILE, nlink := 1 }

theorem inv_emptyFile (bm : Block) (hbm : ∀ k ≤ 4, bm.bit k = true) : Inv (oneFile bm emptyFile) :=
  inv_oneFile hbm (by decide) rfl (fun _ h => absurd rfl h) fun _ _ h => absurd rfl h

theorem noHoles_emptyFile {bm : Block} : NoHoles (oneFile bm emptyFile) 0 := by
  intro bn hbn
  rw [oneFile_icache] at hbn
  exact absurd hbn (Nat.not_lt_zero _)

/-- The hypotheses of `writei_overlays` are satisfiable: an empty file gets a byte. -/
theorem writei_overlays_emptyFile :
    Inv (oneFile emptyGroup emptyFile) ∧
    ((∃ msg, Refused (opLog Mkfs.sb) (writei 0 (fun _ => 1) 0 1)
      (oneFile emptyGroup emptyFile) msg) ∨
      ∃ r s', inLog (opLog Mkfs.sb) (writei 0 (fun _ => 1) 0 1) (oneFile emptyGroup emptyFile) =
        .ok (r, s')) := by
  have hinv := inv_emptyFile emptyGroup (by decide +kernel)
  have hic := @oneFile_icache emptyGroup emptyFile
  refine ⟨hinv, (writei_overlays hinv (oneFile_loaded.2 rfl) (by rw [hic]; decide)
    noHoles_emptyFile (opLog Mkfs.sb) (fun _ => 1) 0 1).imp id ?_⟩
  rintro ⟨r, s', h, -⟩
  exact ⟨r, s', h⟩

/-- The blocks of the first group are free. -/
theorem free_oneFile (d : Dinode) : 195 ≤ (oneFile emptyGroup d).free := by
  have hbits : ∀ k < 200, 5 ≤ k → emptyGroup.bit k = false := by decide +kernel
  have hsub : Finset.Ico 37 232 ⊆ freeBlocks Mkfs.sb (oneFile emptyGroup d).disk := by
    intro b hb
    rw [Finset.mem_Ico] at hb
    have hstart : Mkfs.sb.start = 32 := by decide
    have hlimit : 232 ≤ Mkfs.sb.limit := by decide
    have hbpg : Mkfs.sb.bpg.toNat = 200 := by decide
    refine mem_freeBlocks.2 ⟨⟨by omega, by omega⟩, ?_⟩
    rw [usedBit, oneFile_bitmap, hstart, hbpg]
    exact hbits _ (by omega) (by omega)
  exact (Finset.card_le_card hsub).trans_eq' (by simp)

/-- The blocks of a file are different blocks. -/
theorem card_image_addr {s : State} {k : Slot} (h : Inv s) (hk : s.Loaded k) {T : Finset ℕ}
    (hlt : ∀ bn ∈ T, bn < MAXFILE) (hT : ∀ bn ∈ T, s.addr k bn ≠ 0) :
    (T.image (s.addr k)).card = T.card := by
  refine Finset.card_image_of_injOn fun bn hbn bn' hbn' he => ?_
  by_contra hne
  have hlive := h.live hk
  refine h.blockAddr_ne hlive (hlt _ hbn') (hlt _ hbn) hne ?_ ?_
  · rw [h.coh.cur_loaded hk]; exact hT bn hbn
  · rw [h.coh.cur_loaded hk]; exact congrArg toNat he

/-- **A write of 30 blocks panics**: the file system satisfies the invariant, the file is
empty, the range is below the largest size and `balloc` does not run out of blocks,
but the transaction is too big for the log. -/
theorem writei_too_big :
    Inv (oneFile emptyGroup emptyFile) ∧ (oneFile emptyGroup emptyFile).Loaded 0 ∧
    ((oneFile emptyGroup emptyFile).icache 0).type ≠ T_DEV ∧
    NoHoles (oneFile emptyGroup emptyFile) 0 ∧
    (∃ s', writei 0 (fun _ => 1) 0 15360 (oneFile emptyGroup emptyFile) = .ok (15360, s') ∧
      ¬ RanOut (oneFile emptyGroup emptyFile) s') ∧
    inOp (writei 0 (fun _ => 1) 0 15360) (oneFile emptyGroup emptyFile) =
      .error (.panic "too big a transaction") := by
  have hinv := inv_emptyFile emptyGroup (by decide +kernel)
  have hk : (oneFile emptyGroup emptyFile).Loaded 0 := oneFile_loaded.2 rfl
  have hic := @oneFile_icache emptyGroup emptyFile
  have hty : ((oneFile emptyGroup emptyFile).icache 0).type ≠ T_DEV := by rw [hic]; decide
  have hcard : (touched 0 15360).card = 30 := by decide +kernel
  have hneed : need (oneFile emptyGroup emptyFile) 0 0 15360 ≤
      (oneFile emptyGroup emptyFile).free := by
    refine le_trans ((needOf_le _ _ _).trans ?_) (free_oneFile _)
    rw [hcard]
    decide
  have hsb : (oneFile emptyGroup emptyFile).sb = Mkfs.sb := rfl
  have hno := @noHoles_emptyFile emptyGroup
  generalize oneFile emptyGroup emptyFile = s at *
  have hwp : wp (writei 0 (fun _ => 1) 0 15360) (fun _ => False) (fun r s' =>
      r = 15360 ∧ Wrote 0 (fun _ => 1) 0 15360 s 15360 s') s := by
    refine wp_writei hinv hk hty (fun hbad => ?_) fun m s' _ _ hw => ?_
    · exact absurd hbad (by simp [MAXFILE, BSIZE])
    · obtain rfl : m = 15360 := hw.le.antisymm (not_lt.1 fun hlt =>
        absurd (hw.short hlt).2.2.1 (not_lt.2 hneed))
      exact ⟨rfl, hw⟩
  obtain ⟨r, s', hok, rfl, hw⟩ := exists_ok_of_wp hwp
  refine ⟨hinv, hk, hty, hno, ⟨s', hok, ?_⟩, ?_⟩
  · rw [RanOut, (hw.all rfl).1, List.drop_length]
    exact List.not_mem_nil
  · have hB := card_image_addr hw.inv (hw.loaded hk)
      (fun bn hbn => (mem_touched.1 hbn).1) hw.mapped
    rw [inOp_eq, inLog_eq hok, replay_distinct (B := (touched 0 15360).image (s'.addr 0))
      (l := opLog s.sb) le_rfl (by rw [hsb]; decide) ?_ (by rw [hB, hcard, hsb]; decide)]
    intro b hb
    obtain ⟨bn, hbn, rfl⟩ := Finset.mem_image.1 hb
    exact hw.passed bn hbn

end Xv6.Fs
