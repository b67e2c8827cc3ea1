/-
# The file system `mkfs` makes

`main` of `mkfs.c` over a list of files that fit the disk (`Fits`): it succeeds, and
the image holds a root directory with `.`, `..` and an entry for every file, and
every file with its contents (`main_made`).
-/

import Mathlib.Algebra.BigOperators.Group.List.Basic
import Mathlib.Data.Fintype.Prod
import Xv6.Mkfs.Contents

namespace Xv6.Mkfs

open Fs Function Lib List UInt32
open Image (cur init final)

/-! ### Appending in pieces -/

section Pieces

variable {m m' m'' : Image} {i : UInt32} {t : Int16} {bytes : List UInt8}

theorem Step.trans (h : Step i m m') (h' : Step i m' m'') : Step i m m'' where
  sound := h'.sound
  books := h'.books
  dinode j hne hj := (h'.dinode j hne hj).trans (h.dinode j hne hj)
  blocks j hne hl := by
    have hj : j.toNat < 3168 := hl.1
    have hd := h.dinode j hne hj
    have hl' : Live sb m'.cur j := ⟨hl.1, by
      have := hl.2
      rw [cur, if_pos hj] at this ⊢
      rwa [hd]⟩
    have := h'.blocks j hne hl'
    rw [hd] at this
    exact (h.blocks j hne hl).trans this

theorem Step.refl (h : Sound m) (hb : Books m) : Step i m m :=
  ⟨h, hb, fun _ _ _ => rfl, fun _ _ _ _ _ _ => rfl⟩

theorem blocksOf_mono {a b : ℕ} (h : a ≤ b) : blocksOf a ≤ blocksOf b := by
  unfold blocksOf
  split_ifs <;> omega

theorem map_getD_range (buf : List UInt8) :
    (range buf.length).map (fun i => buf.getD i 0) = buf := by
  refine ext_getElem (by simp) fun k h1 h2 => ?_
  simp [h2]

/-- **A file is written piece by piece.** -/
theorem forM_iappend_fileIs : ∀ {pieces : List (List UInt8)} {m : Image} {bytes : List UInt8},
    Sound m → Books m → FileIs m i t bytes → t ≠ 0 → (∀ buf ∈ pieces, buf ≠ []) →
    (bytes ++ pieces.flatten).length ≤ MAXFILE * BSIZE →
    blocksOf (bytes ++ pieces.flatten).length ≤ m.free + blocksOf bytes.length →
    ∃ m', forM pieces (fun buf => iappend i (fun j => buf.getD j 0) buf.length) m = .ok ((), m') ∧
      Step i m m' ∧ m'.freeinode = m.freeinode ∧ FileIs m' i t (bytes ++ pieces.flatten) ∧
      m'.free + blocksOf (bytes ++ pieces.flatten).length = m.free + blocksOf bytes.length
  | [], m, bytes, h, hb, hf, _, _, _, _ => by
    rw [flatten_nil, append_nil]
    exact ⟨m, rfl, .refl h hb, rfl, hf, rfl⟩
  | buf :: pieces, m, bytes, h, hb, hf, ht, hne, hmax, hcap => by
    rw [flatten_cons, ← append_assoc] at hmax hcap
    have hlen : bytes.length + buf.length ≤ (bytes ++ buf ++ pieces.flatten).length := by
      simp only [length_append]
      omega
    obtain ⟨m1, hrun, hstep, hino, hf1, hfree⟩ :=
      iappend_fileIs (p := fun j => buf.getD j 0) h hb hf
      ht (length_pos_of_ne_nil (hne buf mem_cons_self)) (hlen.trans hmax)
      ((blocksOf_mono hlen).trans hcap)
    rw [map_getD_range] at hf1
    obtain ⟨m2, hrun', hstep', hino', hf2, hfree'⟩ := forM_iappend_fileIs hstep.sound hstep.books
      hf1 ht (fun b hb => hne b (mem_cons_of_mem _ hb)) hmax (by
        rw [← length_append] at hfree
        omega)
    rw [← length_append] at hfree
    refine ⟨m2, ?_, hstep.trans hstep', hino'.trans hino, ?_, ?_⟩
    · rw [forM_cons, bind_of_ok hrun]
      exact hrun'
    · rwa [flatten_cons, ← append_assoc]
    · rw [flatten_cons, ← append_assoc]
      omega

end Pieces

/-! ### The root directory -/

/-- The bytes of a directory entry. -/
def entryBytes (de : Dirent) : List UInt8 := (range 16).map de.bytes

/-- The entries of the files, numbered from `n`. -/
def fileEntries : ℕ → List Input → List UInt8
  | _, [] => []
  | n, f :: files => entryBytes (dirent (ofNat n) f.base) ++ fileEntries (n + 1) files

/-- The contents of the root directory. -/
def rootBytes (files : List Input) : List UInt8 :=
  entryBytes ⟨1, dot⟩ ++ entryBytes ⟨1, dotdot⟩ ++ fileEntries 2 files

theorem length_entryBytes (de : Dirent) : (entryBytes de).length = 16 := by
  rw [entryBytes, length_map, length_range]

theorem length_fileEntries (n : ℕ) (files : List Input) :
    (fileEntries n files).length = 16 * files.length := by
  induction files generalizing n with
  | nil => rfl
  | cons f files ih =>
    rw [fileEntries, length_append, length_entryBytes, ih, length_cons]
    omega

theorem fileEntries_append (n : ℕ) (files : List Input) (f : Input) : fileEntries n (files ++ [f]) =
    fileEntries n files ++ entryBytes (dirent (ofNat (n + files.length)) f.base) := by
  induction files generalizing n with
  | nil => simp [fileEntries]
  | cons g files ih =>
    rw [cons_append, fileEntries, ih, fileEntries, append_assoc, length_cons,
      show n + 1 + files.length = n + (files.length + 1) by omega]

theorem length_rootBytes (files : List Input) :
    (rootBytes files).length = 16 * (files.length + 2) := by
  rw [rootBytes, length_append, length_append, length_entryBytes, length_entryBytes,
    length_fileEntries]
  omega

/-- The blocks that the files take. -/
def fileBlocks (files : List Input) : ℕ := (files.map fun f => blocksOf f.contents.length).sum

/-- The files fit the disk: its inodes, the largest size of a file, and its data blocks. -/
structure Fits (files : List Input) : Prop where
  inodes : files.length + 2 ≤ ngroups * IPG
  size : ∀ f ∈ files, f.contents.length ≤ MAXFILE * BSIZE
  blocks : blocksOf (16 * (files.length + 2)) + fileBlocks files ≤ ngroups * (BPG - metaPerGroup)

/-- Names that `mkfs` takes, and pieces as `read` returns them. -/
structure Input.Good (f : Input) : Prop where
  slash : slash ∉ f.name
  pieces : ∀ buf ∈ f.pieces, buf ≠ []

/-- The image when the files have been added. -/
structure Progress (m : Image) (files : List Input) : Prop where
  sound : Sound m
  books : Books m
  freeinode : m.freeinode.toNat = files.length + 2
  root : FileIs m ROOTINO T_DIR (rootBytes files)
  file : ∀ j f, files[j]? = some f → FileIs m (ofNat (j + 2)) T_FILE f.contents
  rest : ∀ i : UInt32, i = 0 ∨ files.length + 2 ≤ i.toNat → i.toNat < 3168 →
    m.dinode i = Dinode.zero
  free : m.free + blocksOf (16 * (files.length + 2)) + fileBlocks files =
    ngroups * (BPG - metaPerGroup)

section Files

variable {m : Image} {files : List Input} {f : Input}

/-- **A file is added.** -/
theorem Progress.addFile (h : Progress m files) (hf : f.Good) (hfit : Fits (files ++ [f])) :
    ∃ m', addFile ROOTINO f m = .ok ((), m') ∧ Progress m' (files ++ [f]) := by
  have hlen : (files ++ [f]).length = files.length + 1 := by simp
  have hino := hfit.inodes
  have hblk := hfit.blocks
  have hsum : fileBlocks (files ++ [f]) = fileBlocks files + blocksOf f.contents.length := by
    simp [fileBlocks]
  rw [hlen] at hino hblk
  rw [hsum] at hblk
  simp only [ngroups, BPG, IPG, metaPerGroup, IPB, FSSIZE, globalStart, LOGSIZE] at hino hblk
  have hfi := h.freeinode
  have hfree := h.free
  simp only [ngroups, BPG, metaPerGroup, IPG, IPB, FSSIZE, globalStart, LOGSIZE] at hfree
  have hi : m.freeinode.toNat < 3168 := by omega
  have hinum : m.freeinode = ofNat (files.length + 2) := by
    rw [← hfi, UInt32.ofNat_toNat]
  obtain ⟨m1, hrun1, hs1, hino1, hnew, hfree1⟩ := ialloc_fileIs h.sound h.books hi T_FILE
  have hne : ROOTINO ≠ m.freeinode := fun he => by
    rw [← he] at hfi
    have : ROOTINO.toNat = 1 := rfl
    omega
  have hroot1 := hs1.fileIs h.root hne (by decide)
  have hlenr := length_rootBytes files
  obtain ⟨m2, hrun2, hs2, hino2, hroot2, hfree2⟩ := iappend_fileIs
    (p := (dirent m.freeinode f.base).bytes) (n := 16) hs1.sound hs1.books hroot1 (by decide)
    (by decide) (by rw [hlenr]; simp only [MAXFILE, BSIZE]; omega) (by
      rw [hlenr, hfree1, show 16 * (files.length + 2) + 16 = 16 * (files.length + 1 + 2) by omega]
      omega)
  rw [hlenr, show 16 * (files.length + 2) + 16 = 16 * (files.length + 1 + 2) by omega] at hfree2
  have hnew2 := hs2.fileIs hnew hne.symm (by decide)
  have hsize := hfit.size f (by simp)
  obtain ⟨m3, hrun3, hs3, hino3, hnew3, hfree3⟩ := forM_iappend_fileIs hs2.sound hs2.books hnew2
    (by decide) hf.pieces (by rw [nil_append]; exact hsize) (by
      rw [nil_append]
      change blocksOf f.contents.length ≤ m2.free + 0
      omega)
  rw [nil_append] at hnew3 hfree3
  change m3.free + blocksOf f.contents.length = m2.free + 0 at hfree3
  refine ⟨m3, ?_, hs3.sound, hs3.books, ?_, ?_, fun j g hj => ?_, fun i hi hlt => ?_, ?_⟩
  · rw [Mkfs.addFile, if_neg hf.slash, bind_of_ok hrun1, bind_of_ok hrun2]
    exact hrun3
  · rw [hino3, hino2, hino1, hlen, UInt32.toNat_add, hfi]
    change (_ + 1) % _ = _
    omega
  · have := hs3.fileIs hroot2 hne (by decide)
    rwa [rootBytes, fileEntries_append, ← append_assoc, ← rootBytes, Nat.add_comm 2, ← hinum]
  · by_cases hjl : j = files.length
    · subst hjl
      rw [getElem?_concat_length] at hj
      cases hj
      rwa [← hinum]
    · have hj' : files[j]? = some g := by
        have hlt := (List.getElem?_eq_some_iff.1 hj).1
        rw [hlen] at hlt
        rwa [getElem?_append_left (by omega)] at hj
      have hlt := (List.getElem?_eq_some_iff.1 hj').1
      have hfile := h.file j g hj'
      have hjn : (ofNat (j + 2)).toNat = j + 2 := by
        rw [toNat_ofNat']
        omega
      have h1 : ofNat (j + 2) ≠ m.freeinode := fun he => by
        have := congrArg toNat he
        omega
      have h2 : ofNat (j + 2) ≠ ROOTINO := fun he => by
        have := congrArg toNat he
        have : ROOTINO.toNat = 1 := rfl
        omega
      exact hs3.fileIs (hs2.fileIs (hs1.fileIs hfile h1 (by decide)) h2 (by decide)) h1 (by decide)
  · rw [hlen] at hi
    have h1 : i ≠ m.freeinode := fun he => by
      rcases hi with rfl | hi
      · rw [← he] at hfi
        exact absurd hfi (by change ¬ 0 = _; omega)
      · rw [he] at hi
        omega
    have h2 : i ≠ ROOTINO := fun he => by
      rcases hi with rfl | hi
      · exact absurd he (by decide)
      · rw [he] at hi
        have : ROOTINO.toNat = 1 := rfl
        omega
    rw [hs3.dinode i h1 hlt, hs2.dinode i h2 hlt, hs1.dinode i h1 hlt]
    exact h.rest i (hi.imp_right fun hi => by omega) hlt
  · rw [hlen, hsum]
    simp only [ngroups, BPG, metaPerGroup, IPG, IPB, FSSIZE, globalStart, LOGSIZE]
    omega

theorem forM_addFile : ∀ {files : List Input} {m : Image} {done : List Input}, Progress m done →
    (∀ f ∈ files, f.Good) → Fits (done ++ files) →
    ∃ m', forM files (Mkfs.addFile ROOTINO) m = .ok ((), m') ∧ Progress m' (done ++ files)
  | [], m, done, h, _, _ => by
    rw [append_nil]
    exact ⟨m, rfl, h⟩
  | f :: files, m, done, h, hgood, hfit => by
    have happ : done ++ f :: files = done ++ [f] ++ files := by simp
    rw [happ] at hfit ⊢
    have hfit1 : Fits (done ++ [f]) := by
      have h1 := hfit.inodes
      have h2 := hfit.blocks
      have hsum : fileBlocks (done ++ [f] ++ files) =
          fileBlocks (done ++ [f]) + fileBlocks files := by simp [fileBlocks, Nat.add_assoc]
      rw [hsum] at h2
      refine ⟨?_, fun g hg => hfit.size g (mem_append_left _ hg), ?_⟩
      · rw [length_append] at h1
        omega
      · have := blocksOf_mono (show 16 * ((done ++ [f]).length + 2) ≤
          16 * ((done ++ [f] ++ files).length + 2) by
            simp only [length_append]; omega)
        omega
    obtain ⟨m1, hrun, h1⟩ := h.addFile (hgood f mem_cons_self) hfit1
    obtain ⟨m2, hrun', h2⟩ := forM_addFile h1 (fun g hg => hgood g (mem_cons_of_mem _ hg)) hfit
    refine ⟨m2, ?_, h2⟩
    rw [forM_cons, bind_of_ok hrun]
    exact hrun'

end Files

/-! ### The whole image -/

/-- The data blocks of the groups. -/
theorem card_isData :
    ((Finset.Ico 32 19832).filter fun b => 4 < (b - 32) % 200).card = 99 * 195 := by
  have himage : (Finset.Ico 32 19832).filter (fun b => 4 < (b - 32) % 200) =
      (Finset.univ : Finset (Fin 99 × Fin 195)).image fun x => 37 + 200 * x.1.1 + x.2.1 := by
    ext b
    simp only [Finset.mem_filter, Finset.mem_Ico, Finset.mem_image, Finset.mem_univ, true_and,
      Prod.exists]
    constructor
    · intro h
      exact ⟨⟨(b - 32) / 200, by omega⟩, ⟨(b - 32) % 200 - 5, by omega⟩, by dsimp only; omega⟩
    · rintro ⟨g, k, rfl⟩
      have := g.2
      have := k.2
      omega
  rw [himage, Finset.card_image_of_injective, Finset.card_univ, Fintype.card_prod, Fintype.card_fin,
    Fintype.card_fin]
  intro x y he
  dsimp only at he
  exact Prod.ext (Fin.ext (by omega)) (Fin.ext (by omega))

/-- The image with its superblock and nothing else. -/
def Image.blank : Image := { Image.init with disk := update Image.init.disk 1 sb.toBlock }

theorem dinode_blank {i : UInt32} (hi : i.toNat < 3168) : Image.blank.dinode i = Dinode.zero := by
  have := IBLOCK_facts hi
  rw [Image.dinode]
  change getDinode (update (fun _ => Buf.zero) 1 sb.toBlock (IBLOCK i sb).toNat) _ = _
  rw [update_of_ne (by omega), getDinode_zero]

theorem sound_blank : Sound Image.blank where
  super := by
    change update init.disk 1 sb.toBlock 1 = _
    rw [update_self]
  boot := update_of_ne (show 0 ≠ 1 by decide) sb.toBlock init.disk
  ptr := by decide
  zero b hb _ := by
    have := isData_iff.1 hb
    exact update_of_ne (show b ≠ 1 by omega) sb.toBlock init.disk
  got b hb := absurd hb not_mem_nil
  nodup := nodup_nil

theorem books_blank : Books Image.blank := by
  have hno : ∀ i, ¬ Live sb Image.blank.cur i := fun i hl => by
    refine hl.2 ?_
    rw [cur, if_pos (show i.toNat < 3168 from hl.1), dinode_blank hl.1]
    rfl
  exact ⟨fun i hl => absurd hl (hno i), fun i _ hl => absurd hl (hno i)⟩

theorem free_blank : Image.blank.free = 19305 := by
  refine (congrArg Finset.card (Finset.ext fun b => ?_)).trans card_isData
  rw [final, mem_freeBlocks_bitmapped, isData_iff, Finset.mem_filter, Finset.mem_Ico]
  change _ ∧ 37 ≤ b ↔ _
  omega

/-- The image with the root directory. -/
theorem progress_root : ∃ m1 m2 m3, ialloc T_DIR Image.blank = .ok (ROOTINO, m1) ∧
    iappend ROOTINO (Dirent.bytes ⟨1, dot⟩) 16 m1 = .ok ((), m2) ∧
    iappend ROOTINO (Dirent.bytes ⟨1, dotdot⟩) 16 m2 = .ok ((), m3) ∧ Progress m3 [] := by
  obtain ⟨m1, hrun1, hs1, hino1, hr1, hf1⟩ :=
    ialloc_fileIs sound_blank books_blank (by decide) T_DIR
  rw [free_blank] at hf1
  obtain ⟨m2, hrun2, hs2, hino2, hr2, hf2⟩ := iappend_fileIs (p := Dirent.bytes ⟨1, dot⟩) (n := 16)
    hs1.sound hs1.books hr1 (by decide) (by decide) (by decide) (by rw [hf1]; decide)
  obtain ⟨m3, hrun3, hs3, hino3, hr3, hf3⟩ := iappend_fileIs (p := Dirent.bytes ⟨1, dotdot⟩)
    (n := 16) hs2.sound hs2.books hr2 (by decide) (by decide) (by simp) (by
      simp only [nil_append, length_map, length_range, length_nil] at hf2 ⊢
      rw [show blocksOf (16 + 16) = 1 by decide, show blocksOf 16 = 1 by decide]
      omega)
  refine ⟨m1, m2, m3, hrun1, hrun2, hrun3, hs3.sound, hs3.books, ?_, hr3, ?_,
    fun i hi hlt => ?_, ?_⟩
  · rw [hino3, hino2, hino1]
    rfl
  · intro j f hj
    cases hj
  · have hne : i ≠ ROOTINO := fun he => by
      rcases hi with rfl | hi
      · exact absurd he (by decide)
      · rw [he] at hi
        exact absurd hi (by decide)
    rw [hs3.dinode i hne hlt, hs2.dinode i hne hlt, hs1.dinode i hne hlt, dinode_blank hlt]
  · simp only [nil_append, length_map, length_range, length_nil] at hf2 hf3
    rw [show blocksOf (0 + 16) = 1 by decide, show blocksOf 0 = 0 by decide] at hf2
    rw [show blocksOf (16 + 16) = 1 by decide, show blocksOf 16 = 1 by decide] at hf3
    change m3.free + blocksOf 32 + 0 = 19305
    rw [show blocksOf 32 = 1 by decide]
    omega

/-! ### The bitmaps -/

/-- The bitmaps of some groups are written. -/
theorem forM_wsect_bitmap (used : ℕ) : ∀ {l : List ℕ} {m : Image}, (∀ g ∈ l, g < 99) →
    forM l (fun g => wsect (ofNat (globalStart + g * BPG + IPG / IPB)) (groupBitmap used g)) m
      = .ok ((), { m with
          disk := fun b => if ∃ g ∈ l, b = sb.bitmapBlock g then groupBitmap used ((b - 32) / 200)
            else m.disk b })
  | [], m, _ => by
    simp only [not_mem_nil, false_and, exists_false, if_false]
    rfl
  | g :: l, m, hl => by
    have hg : g < 99 := hl g mem_cons_self
    have hsec : (ofNat (globalStart + g * BPG + IPG / IPB)).toNat = sb.bitmapBlock g := by
      rw [toNat_ofNat', sb_bitmapBlock]
      simp only [globalStart, LOGSIZE, BPG, IPG, IPB]
      omega
    have hwrite : ∀ sec buf, wsect sec buf m =
        .ok ((), { m with disk := update m.disk sec.toNat buf }) := fun _ _ => rfl
    rw [forM_cons, bind_of_ok (hwrite _ _),
      forM_wsect_bitmap used fun g' hg' => hl g' (mem_cons_of_mem _ hg'), hsec]
    congr 3
    funext b
    change (if _ then _ else update m.disk (sb.bitmapBlock g) (groupBitmap used g) b) = _
    by_cases hb : b = sb.bitmapBlock g
    · have hdiv : (b - 32) / 200 = g := by
        rw [hb, sb_bitmapBlock]
        omega
      rw [if_pos (⟨g, mem_cons_self, hb⟩ : ∃ g' ∈ g :: l, b = sb.bitmapBlock g'), hdiv, hb,
        update_self, ite_self]
    · rw [update_of_ne hb]
      simp only [mem_cons, exists_eq_or_imp, hb, false_or]

theorem balloc_eq (m : Image) : balloc m.freeblock m = .ok ((), { m with disk := m.final }) := by
  have hgroups : ∀ g ∈ range ngroups, g < 99 := fun g hg => by
    have := mem_range.1 hg
    simp only [ngroups, FSSIZE, globalStart, LOGSIZE, BPG] at this
    omega
  rw [balloc, forM_wsect_bitmap m.freeblock.toNat hgroups]
  congr 3
  funext b
  rw [final, bitmapped]
  refine if_congr ?_ rfl rfl
  rw [isBitmap_iff]
  simp only [mem_range, ngroups, FSSIZE, globalStart, LOGSIZE, BPG]

/-- The image `mkfs` leaves, before the bitmaps are written. -/
structure Made (m : Image) (files : List Input) : Prop where
  sound : Sound m
  books : Books m
  root : (m.dinode ROOTINO).type = T_DIR ∧ (m.dinode ROOTINO).nlink = 1 ∧
    (m.dinode ROOTINO).size.toNat = (16 * (files.length + 2) / 512 + 1) * 512
  rootBlocks : ∀ bn < MAXFILE, blockAddr m.final (m.dinode ROOTINO) bn ≠ 0 ↔
    bn * BSIZE < 16 * (files.length + 2)
  rootData : ∀ x, content m.final (m.dinode ROOTINO) x = (rootBytes files).getD x 0
  file : ∀ j f, files[j]? = some f → FileIs m (ofNat (j + 2)) T_FILE f.contents
  rest : ∀ i : UInt32, i = 0 ∨ files.length + 2 ≤ i.toNat → i.toNat < 3168 →
    m.dinode i = Dinode.zero
  free : m.free + blocksOf (16 * (files.length + 2)) + fileBlocks files =
    ngroups * (BPG - metaPerGroup)

/-- The image with the size of the root directory rounded up. -/
def Image.rounded (m : Image) : Image :=
  m.put ROOTINO { m.dinode ROOTINO with
    size := ofNat (((m.dinode ROOTINO).size.toNat / BSIZE + 1) * BSIZE) }

variable {files : List Input}

/-- **`mkfs` succeeds** on files that fit. -/
theorem main_eq (hgood : ∀ f ∈ files, f.Good) (hfit : Fits files) :
    ∃ m, main files init = .ok ((), { m.rounded with disk := m.rounded.final }) ∧
      Progress m files := by
  obtain ⟨m1, m2, m3, h1, h2, h3, hprog⟩ := progress_root
  obtain ⟨m4, h4, hp⟩ := forM_addFile hprog hgood (by rw [nil_append]; exact hfit)
  rw [nil_append] at hp
  have hi : ROOTINO.toNat < 3168 := by decide
  refine ⟨m4, ?_, hp⟩
  rw [main, bind_of_ok (show wsect 1 sb.toBlock init = .ok ((), Image.blank) from rfl),
    bind_of_ok h1, if_neg (by simp), show ROOTINO.toUInt16 = 1 from rfl, bind_of_ok h2,
    bind_of_ok h3, bind_of_ok h4, bind_of_ok (rinode_eq hi), bind_of_ok (winode_eq hi _)]
  exact bind_of_ok (m := get) (f := fun m => balloc m.freeblock) rfl |>.trans (balloc_eq _)

/-- Rounding the size up changes the root directory's size and nothing else. -/
theorem Progress.made {m : Image} (hp : Progress m files) (hfit : Fits files) :
    Made m.rounded files := by
  have hi : ROOTINO.toNat < 3168 := by decide
  have hsize := hp.root.size
  rw [length_rootBytes] at hsize
  have hino := hfit.inodes
  simp only [ngroups, IPG, FSSIZE, globalStart, LOGSIZE, BPG] at hino
  have hstep : Step ROOTINO m m.rounded := hp.books.put hp.sound hi (.inr ⟨rfl, rfl⟩)
  have hdin : m.rounded.dinode ROOTINO = { m.dinode ROOTINO with
      size := ofNat (((m.dinode ROOTINO).size.toNat / BSIZE + 1) * BSIZE) } := by
    rw [Image.rounded, dinode_put hi hi, if_pos rfl]
  have hsame : SameBlocks m.final m.rounded.final (m.cur ROOTINO) :=
    hp.books.sameBlocks_put hi (hp.root.live (by decide))
  rw [cur, if_pos hi] at hsame
  have hheld : ∀ k, holds m.rounded.final (m.rounded.dinode ROOTINO) k =
      holds m.rounded.final (m.dinode ROOTINO) k := fun k => holds_congr_addrs (by rw [hdin])
  refine ⟨hstep.sound, hstep.books, ?_, fun bn hbn => ?_, fun x => ?_, fun j f hj => ?_,
    fun i hi' hlt => ?_, ?_⟩
  · rw [hdin]
    refine ⟨hp.root.type, hp.root.nlink, ?_⟩
    change (ofNat _).toNat = _
    rw [hsize, toNat_ofNat']
    simp only [BSIZE]
    omega
  · rw [blockAddr, hheld, ← hsize]
    exact (hp.root.tight.congr hsame).data bn hbn
  · rw [← hp.root.data, ← hsame.content, content, content, blockAddr, blockAddr, hheld]
  · have hne : ofNat (j + 2) ≠ ROOTINO := fun he => by
      have hlt := (List.getElem?_eq_some_iff.1 hj).1
      have := congrArg toNat he
      rw [toNat_ofNat'] at this
      change (j + 2) % _ = 1 at this
      omega
    exact hstep.fileIs (hp.file j f hj) hne (by decide)
  · have hne : i ≠ ROOTINO := fun he => by
      rcases hi' with rfl | hi'
      · exact absurd he (by decide)
      · rw [he] at hi'
        change _ ≤ 1 at hi'
        omega
    rw [hstep.dinode i hne hlt]
    exact hp.rest i hi' hlt
  · rw [Image.rounded, free_put]
    exact hp.free

/-- **`mkfs` makes a file system with the files.** -/
theorem main_made (hgood : ∀ f ∈ files, f.Good) (hfit : Fits files) :
    ∃ m, main files init = .ok ((), { m with disk := m.final }) ∧ Made m files := by
  obtain ⟨m, hmain, hp⟩ := main_eq hgood hfit
  exact ⟨m.rounded, hmain, hp.made hfit⟩

end Xv6.Mkfs
