/-
# Directories

`namecmp`, `dirlookup` and `dirlink` of `fs.c`.  A directory is a file of 16-byte
entries; an entry with inode number `0` is empty.  `dirlookup` finds the first
entry with the name (`wp_dirlookup`), `dirlink` writes into the first empty one or
past the end (`wp_dirlink`).

The offsets of the loops are `uint` in the source; the size of a directory is at
most `MAXFILE * BSIZE`, so they do not wrap around.
-/

import Xv6.Fs.Refs
import Xv6.Strings

namespace Xv6.Fs

open Lib List UInt32

/-- Compare two names. -/
def namecmp (s t : Buf DIRSIZ) : ℤ := strncmp s.byte t.byte DIRSIZ

/-- The key of a name: its first `DIRSIZ` bytes up to a zero byte. -/
def key (name : Buf DIRSIZ) : List UInt8 := str name.byte DIRSIZ 0

theorem namecmp_eq_zero {a b : Buf DIRSIZ} : namecmp a b = 0 ↔ key a = key b := strncmp_eq_zero

theorem key_strncpy {name : Buf DIRSIZ} : key (strncpy name.byte DIRSIZ) = key name := str_strncpy

/-- The name `.`. -/
def dot : Buf DIRSIZ := fun i => if i.1 = 0 then 46 else 0

/-- The name `..`. -/
def dotdot : Buf DIRSIZ := fun i => if i.1 < 2 then 46 else 0

/-- Entries that the loops over a directory of `size` bytes visit. -/
def direntCount (size : UInt32) : ℕ := (size.toNat + 15) / 16

/-- `if(readi(dp, (char*)&de, off, sizeof(de)) != sizeof(de)) panic(msg);` -/
def readDirent (dp : Slot) (off : ℕ) (msg : String) : Prog State Dirent := do
  let (n, bytes) ← readi dp (ofNat off) 16
  if n ≠ 16 then Prog.panic msg
  return Dirent.ofBytes fun i => bytes.getD i 0

/-- Look for a directory entry in a directory: the inode and the offset of the
entry. -/
def dirlookup (dp : Slot) (name : Buf DIRSIZ) : Prog State (Option (Slot × ℕ)) := do
  if (← getInode dp).type ≠ T_DIR then Prog.panic "dirlookup not DIR"
  (range (direntCount (← getInode dp).size)).findSomeM? fun j => do
    let de ← readDirent dp (16 * j) "dirlookup read"
    if de.inum = 0 then return none
    else if namecmp name de.name = 0 then
      let ip ← iget (← getInode dp).dev de.inum.toUInt32
      return some (ip, 16 * j)
    else return none

/-- Look for an empty entry: its offset, or the one past the last entry. -/
def emptyDirent (dp : Slot) : Prog State ℕ := do
  let n := direntCount (← getInode dp).size
  let found ← (range n).findSomeM? fun j => do
    let de ← readDirent dp (16 * j) "dirlink read"
    return if de.inum = 0 then some (16 * j) else none
  return found.getD (16 * n)

/-- Write a new directory entry `(name, inum)` into the directory `dp`. -/
def dirlink (dp : Slot) (name : Buf DIRSIZ) (inum : UInt32) : Prog State ℤ := do
  match ← dirlookup dp name with
  | some (ip, _) => do
      iput ip
      return -1
  | none => do
      let off ← emptyDirent dp
      let de : Dirent := ⟨inum.toUInt16, strncpy name.byte DIRSIZ⟩
      if (← writei dp de.bytes (ofNat off) 16) ≠ 16 then Prog.panic "dirlink"
      return 0

/-- The entry is in use and has the name. -/
def Dirent.Is (de : Dirent) (name : Buf DIRSIZ) : Prop := de.inum ≠ 0 ∧ namecmp name de.name = 0

instance (de : Dirent) (name : Buf DIRSIZ) : Decidable (de.Is name) :=
  inferInstanceAs (Decidable (_ ∧ _))

section Dir

variable {s : State} {k : Slot} {E : Fail → Prop} {name : Buf DIRSIZ}

theorem wp_readDirent (h : Inv s) (hk : s.Loaded k) (hty : (s.icache k).type ≠ T_DEV) {j : ℕ}
    {msg : String} {Q : Dirent → State → Prop}
    (hj : 16 * j < (s.icache k).size.toNat)
    (hE : (s.icache k).size.toNat < 16 * j + 16 → E (.panic msg))
    (hQ : ∀ s', 16 * j + 16 ≤ (s.icache k).size.toNat → Grows k s s' →
      (NoHoles s k → s' = s) → Q (direntAt (s.data k) j) s') :
    wp (readDirent k (16 * j) msg) E Q s := by
  have hlt := (s.icache k).size.toNat_lt
  have hoff : (ofNat (16 * j)).toNat = 16 * j := by
    rw [toNat_ofNat']; omega
  unfold readDirent
  rw [wp_bind]
  refine wp_readi h hk hty (fun hbad => ?_) fun m s' hle hsum hm hg hsame => ?_
  · simp only [wp_bind, wp_ite, wp_panic]
    rw [hoff] at hbad
    refine ⟨fun _ => hE ?_, fun hc => absurd hc (by decide)⟩
    rcases hbad with hbad | hbad
    · omega
    · have : (16 : UInt32).toNat = 16 := rfl
      omega
  · rw [hoff] at hm hsame ⊢
    rw [show (16 : UInt32).toNat = 16 from rfl] at hm
    simp only [wp_bind, wp_ite, wp_panic, wp_pure]
    have hr : toInt (ofNat m) = m := by
      rw [toInt_eq] <;> rw [toNat_ofNat'] <;> omega
    rw [hr]
    by_cases hfit : 16 * j + 16 ≤ (s.icache k).size.toNat
    · have hm : m = 16 := by omega
      subst hm
      refine ⟨fun hc => absurd rfl hc, fun _ => ?_⟩
      have hde : (Dirent.ofBytes fun i => ((range 16).map fun r =>
          s.data k (16 * j + r)).getD i 0) = direntAt (s.data k) j := by
        refine congrArg Dirent.ofBytes (funext fun i => ?_)
        simp
      rw [hde]
      refine hQ s' hfit hg fun hno => hsame fun x hx1 hx2 => hno _ ?_
      have := Nat.div_mul_le_self x BSIZE
      omega
    · exact ⟨fun _ => hE (by omega), fun hc => absurd hc (by omega)⟩

theorem lt_direntCount {size : UInt32} {j : ℕ} : j < direntCount size ↔ 16 * j < size.toNat := by
  unfold direntCount; omega

/-- The state of a loop over a directory that has only read it. -/
def Looked (k : Slot) (s s' : State) : Prop := Grows k s s' ∧ (NoHoles s k → s' = s)

/-- A loop that reads the entries of a directory one after another, up to one for
which `g` gives a result. -/
theorem wp_direntLoop {β : Type} {s : State} (h : Inv s) (hk : s.Loaded k)
    (hty : (s.icache k).type ≠ T_DEV) {msg : String}
    (hE : ¬ 16 ∣ (s.icache k).size.toNat → E (.panic msg))
    {g : ℕ → Dirent → Prog State (Option β)} {P : Dirent → Prop} {Q : Option β → State → Prop}
    (hskip : ∀ j s', ¬ P (direntAt (s.data k) j) → Looked k s s' →
      wp (g j (direntAt (s.data k) j)) E (fun r s'' => r = none ∧ s'' = s') s')
    (hfound : ∀ j s', 16 * j + 16 ≤ (s.icache k).size.toNat → P (direntAt (s.data k) j) →
      (∀ j' < j, ¬ P (direntAt (s.data k) j')) → Looked k s s' →
      wp (g j (direntAt (s.data k) j)) E (fun r s'' => ∃ b, r = some b ∧ Q (some b) s'') s')
    (hend : ∀ s', (∀ j, 16 * j < (s.icache k).size.toNat → ¬ P (direntAt (s.data k) j)) →
      16 ∣ (s.icache k).size.toNat → Looked k s s' → Q none s') :
    wp ((range (direntCount (s.icache k).size)).findSomeM? fun j => do
      let de ← readDirent k (16 * j) msg
      g j de) E Q s := by
  let n := direntCount (s.icache k).size
  rw [range_eq_range']
  refine wp_findSomeM? (fun l s' => ∃ j, l = range' j (n - j) ∧ Looked k s s' ∧
    (∀ j' < j, 16 * j' + 16 ≤ (s.icache k).size.toNat) ∧ ∀ j' < j, ¬ P (direntAt (s.data k) j'))
    ?_ ?_ ⟨0, rfl, ⟨.refl h, fun _ => rfl⟩, by simp, by simp⟩
  · rintro a l s1 ⟨j, hl, hlook, hfits, hno⟩
    have hjn : j < n := by
      by_contra hc
      rw [show n - j = 0 by omega] at hl
      cases hl
    obtain ⟨m, hm⟩ : ∃ m, n - j = m + 1 := ⟨n - j - 1, by omega⟩
    rw [hm, range'_succ] at hl
    obtain ⟨rfl, rfl⟩ := cons.inj hl
    obtain ⟨hg, hsame⟩ := hlook
    have hj := lt_direntCount.1 hjn
    rw [← hg.size] at hj
    rw [wp_bind]
    refine wp_readDirent hg.inv (hg.loaded hk) (by rw [hg.type_eq]; exact hty) hj
      (fun hc => hE ?_) fun s2 hfit hg2 hsame2 => ?_
    · rw [hg.size] at hc hj
      omega
    · rw [hg.data]
      rw [hg.size] at hfit
      have hlook2 : Looked k s s2 := ⟨hg.trans hg2, fun hno => by
        have he := hsame hno
        subst he
        exact hsame2 hno⟩
      by_cases hP : P (direntAt (s.data k) a)
      · refine wp_mono (hfound a s2 hfit hP hno hlook2) fun r s3 hr => ?_
        obtain ⟨b, rfl, hQ⟩ := hr
        exact hQ
      · refine wp_mono (hskip a s2 hP hlook2) fun r s3 hr => ?_
        obtain ⟨rfl, rfl⟩ := hr
        refine ⟨a + 1, by rw [show n - (a + 1) = m by omega], hlook2, fun j' hj' => ?_,
          fun j' hj' => ?_⟩ <;> rcases Nat.lt_succ_iff_lt_or_eq.1 hj' with hj' | rfl
        · exact hfits j' hj'
        · exact hfit
        · exact hno j' hj'
        · exact hP
  · rintro s1 ⟨j, hl, hlook, hfits, hno⟩
    have hnj : n ≤ j := by
      have := congrArg length hl
      simpa [Nat.sub_eq_zero_iff_le] using this.symm
    refine hend s1 (fun j' hj' => hno j' ((lt_direntCount.2 hj').trans_le hnj)) ?_ hlook
    by_contra h16
    have hn : n = ((s.icache k).size.toNat + 15) / 16 := rfl
    have hlast := hfits (n - 1) (by omega)
    omega

/-- **`dirlookup` finds the first entry with the name**, and changes nothing but
the cache if the directory has all its blocks. -/
theorem wp_dirlookup {s : State} (h : Inv s) (hk : s.Loaded k)
    {Q : Option (Slot × ℕ) → State → Prop}
    (hdir : (s.icache k).type ≠ T_DIR → E (.panic "dirlookup not DIR"))
    (hread : ¬ 16 ∣ (s.icache k).size.toNat → E (.panic "dirlookup read"))
    (hnone : ∀ s', (s.icache k).type = T_DIR → 16 ∣ (s.icache k).size.toNat →
      (∀ j, 16 * j < (s.icache k).size.toNat → ¬ (direntAt (s.data k) j).Is name) →
      Looked k s s' → Q none s')
    (hsome : ∀ j s', (s.icache k).type = T_DIR → 16 * j + 16 ≤ (s.icache k).size.toNat →
      (direntAt (s.data k) j).Is name → (∀ j' < j, ¬ (direntAt (s.data k) j').Is name) →
      Looked k s s' → wp (iget ROOTDEV (direntAt (s.data k) j).inum.toUInt32) E
        (fun ip s2 => Q (some (ip, 16 * j)) s2) s') :
    wp (dirlookup k name) E Q s := by
  unfold dirlookup getInode
  simp only [wp_bind, wp_get, wp_pure, wp_ite, wp_panic]
  refine ⟨hdir, fun hty => ?_⟩
  have hty : (s.icache k).type = T_DIR := not_not.1 hty
  refine wp_direntLoop (P := (Dirent.Is · name)) h hk (by rw [hty]; decide) hread
    (fun j s' hno hlook => ?_) (fun j s' hfit his hno hlook => ?_) fun s' hno h16 hlook =>
      hnone s' hty h16 hno hlook
  · simp only [wp_ite, wp_pure, wp_bind]
    exact ⟨fun _ => ⟨trivial, trivial⟩, fun hi =>
      ⟨fun hn => absurd ⟨hi, hn⟩ hno, fun _ => ⟨trivial, trivial⟩⟩⟩
  · simp only [wp_ite, wp_pure, wp_bind, wp_get]
    have hdev : (s'.icache k).dev = ROOTDEV :=
      (hlook.1.inv.coh.range k (hlook.1.loaded hk).1).1
    rw [hdev]
    refine ⟨fun hi => absurd hi his.1, fun _ => ⟨fun _ => ?_, fun hn => absurd his.2 hn⟩⟩
    exact wp_mono (hsome j s' hty hfit his hno hlook) fun ip s2 hQ => ⟨_, rfl, hQ⟩

/-- The entry that `dirlink` uses: the first empty one, or one past the end. -/
structure FirstEmpty (f : ℕ → UInt8) (size j : ℕ) : Prop where
  le : 16 * j ≤ size
  empty : 16 * j < size → (direntAt f j).inum = 0
  used : ∀ j' < j, (direntAt f j').inum ≠ 0

theorem wp_emptyDirent {s : State} (h : Inv s) (hk : s.Loaded k) (hty : (s.icache k).type ≠ T_DEV)
    {Q : ℕ → State → Prop} (h16 : 16 ∣ (s.icache k).size.toNat)
    (hQ : ∀ j s', FirstEmpty (s.data k) (s.icache k).size.toNat j → Looked k s s' → Q (16 * j) s') :
    wp (emptyDirent k) E Q s := by
  unfold emptyDirent getInode
  simp only [wp_bind, wp_get, wp_pure]
  refine wp_direntLoop (P := (·.inum = 0)) h hk hty (fun hc => absurd h16 hc)
    (fun j s' hno hlook => ?_) (fun j s' hfit his hno hlook => ?_) fun s' hno _ hlook => ?_
  · rw [wp_pure, if_neg hno]
    exact ⟨rfl, rfl⟩
  · rw [wp_pure, if_pos his]
    exact ⟨_, rfl, hQ j s' ⟨by omega, fun _ => his, hno⟩ hlook⟩
  · refine hQ _ s' ⟨?_, fun hlt => ?_, fun j' hj' => hno j' (lt_direntCount.1 hj')⟩ hlook
    · unfold direntCount; omega
    · exact absurd (lt_direntCount.2 hlt) (lt_irrefl _)

theorem Looked.trans {s s1 s2 : State} (h : Looked k s s1) (h' : Looked k s1 s2) :
    Looked k s s2 := by
  refine ⟨h.1.trans h'.1, fun hno => ?_⟩
  have he := h.2 hno
  subst he
  exact h'.2 hno

/-- **`dirlink` fails if the name is there, and else writes the entry**: into the
first empty place, as far as `writei` goes. -/
theorem wp_dirlink {s : State} (h : Inv s) (hk : s.Loaded k) {inum : UInt32}
    {Q : ℤ → State → Prop}
    (hdir : (s.icache k).type ≠ T_DIR → E (.panic "dirlookup not DIR"))
    (hread : ¬ 16 ∣ (s.icache k).size.toNat → E (.panic "dirlookup read"))
    (hbig : ∀ j, (∀ j, 16 * j < (s.icache k).size.toNat → ¬ (direntAt (s.data k) j).Is name) →
      FirstEmpty (s.data k) (s.icache k).size.toNat j → MAXFILE * BSIZE < 16 * j + 16 →
      E (.panic "dirlink"))
    (hfound : ∀ j s', (s.icache k).type = T_DIR → 16 * j + 16 ≤ (s.icache k).size.toNat →
      (direntAt (s.data k) j).Is name → (∀ j' < j, ¬ (direntAt (s.data k) j').Is name) →
      Looked k s s' → wp (iget ROOTDEV (direntAt (s.data k) j).inum.toUInt32) E
        (fun ip s2 => wp (iput ip) E (fun _ s3 => Q (-1) s3) s2) s')
    (hadd : ∀ j s1 m s', (s.icache k).type = T_DIR →
      (∀ j, 16 * j < (s.icache k).size.toNat → ¬ (direntAt (s.data k) j).Is name) →
      FirstEmpty (s.data k) (s.icache k).size.toNat j → 16 ∣ (s.icache k).size.toNat →
      Looked k s s1 → 16 * j + 16 ≤ MAXFILE * BSIZE →
      Wrote k (Dirent.bytes ⟨inum.toUInt16, strncpy name.byte DIRSIZ⟩) (16 * j) 16 s1 m s' →
      Q 0 s') :
    wp (dirlink k name inum) E Q s := by
  unfold dirlink
  rw [wp_bind]
  refine wp_dirlookup h hk hdir hread
    (fun s1 hty h16 hno hlook => ?_) fun j s1 hty hfit his hno hlook => ?_
  · have hdev : (s1.icache k).type ≠ T_DEV := by rw [hlook.1.type_eq, hty]; decide
    simp only [wp_bind]
    refine wp_emptyDirent hlook.1.inv (hlook.1.loaded hk) hdev (by rwa [hlook.1.size])
      fun j s2 hj hlook2 => ?_
    have hl := hlook.trans hlook2
    have hlt := (s.icache k).size.toNat_lt
    rw [hlook.1.data, hlook.1.size] at hj
    have hoff : (ofNat (16 * j)).toNat = 16 * j := by
      have := hj.le
      rw [toNat_ofNat']; omega
    refine wp_writei hl.1.inv (hl.1.loaded hk) (by rwa [hlook2.1.type_eq]) (fun hbad => ?_)
      fun m s' _ hmax hw => ?_
    · simp only [wp_ite, wp_bind, wp_panic]
      refine ⟨fun _ => hbig j hno hj ?_, fun hc => absurd hc (by decide)⟩
      have := hj.le
      rw [hoff, hl.1.size, show (16 : UInt32).toNat = 16 from rfl] at hbad
      simp only [MAXFILE, BSIZE] at hbad ⊢
      omega
    · simp only [wp_ite, wp_bind, wp_pure]
      refine ⟨fun hc => absurd rfl hc, fun _ => ?_⟩
      rw [hoff] at hw hmax
      exact hadd j s2 m s' hty hno hj h16 hl hmax hw
  · simp only [wp_bind, wp_pure]
    exact hfound j s1 hty hfit his hno hlook

/-! ### Writing an entry -/

variable {X : UInt32 → Prop} {H : Slot → ℕ} {s1 s' : State} {j m : ℕ} {de : Dirent}

/-- An entry is written as a whole or not at all. -/
theorem Wrote.entry_cases {src : ℕ → UInt8} (hw : Wrote k src (16 * j) 16 s m s')
    (hmax : 16 * j + 16 ≤ MAXFILE * BSIZE) : m = 0 ∨ m = 16 := by
  by_contra hm
  have hle := hw.le
  have hlt : m < 16 := by omega
  have hpage : (16 * j + m) / BSIZE = 16 * j / BSIZE := by simp only [BSIZE]; omega
  have hmem : 16 * j / BSIZE ∈ touched (16 * j) m :=
    div_mem_touched le_rfl (by omega) (by omega)
  have h0 := (hw.short hlt).2.2.2
  rw [hpage] at h0
  exact hw.mapped _ hmem h0

/-- The entries of a directory after one has been written. -/
theorem direntAt_overlaid {f : ℕ → UInt8} (i : ℕ) :
    direntAt (overlaid f de.bytes (16 * j) 16) i = if i = j then de else direntAt f i := by
  split_ifs with hi
  · subst hi
    refine Eq.trans (congrArg Dirent.ofBytes (funext fun r => ?_)) de.ofBytes_bytes
    have := r.isLt
    rw [overlaid, if_pos (by omega), Nat.add_sub_cancel_left]
  · exact direntAt_congr fun r hr => overlaid_of_not (by omega)

/-! ### Evolution -/

theorem Looked.evolves (hw : Wf X s) (hk : s.Loaded k) (hl : Looked k s s') :
    Evolves X H s s' := .of_edits (hw.grows hk hl.1) hl.1.toEdits

/-- An entry of a directory names an inode that exists. -/
theorem Wf.entry_lt (hw : Wf X s) (hk : s.Loaded k) (hty : (s.icache k).type = T_DIR)
    (hj : 16 * j + 16 ≤ (s.icache k).size.toNat) :
    (direntAt (s.data k) j).inum.toUInt32.toNat < s.sb.ninodes.toNat := by
  have hcur := hw.inv.coh.cur_loaded hk
  have hold := (hw.inode _).entries (hw.inv.live hk) (by rw [hcur]; exact hty)
  rw [hcur] at hold
  rw [UInt16.toNat_toUInt32]
  exact hold j hj

end Dir
end Xv6.Fs
