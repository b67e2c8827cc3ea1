/-
# Starting from an image

The kernel on an image that `mkfs` has written, before it has read an inode (`Fresh`).
The file system is well-formed (`Fresh.wf`) and its directories form a tree
(`Fresh.isTree`): the one directory is the root, and the names in it are `.`, `..` and
those of the files.

`mkfs_format` says that the two implementations of the format agree: `namei` finds each
file by its name, `ilock` reads its inode, and `readi` returns its bytes.
-/

import Xv6.Mkfs.Exact

namespace Xv6.Mkfs

open Fs Lib List Nat UInt32

/-- The kernel runs on the image and has not read an inode yet. -/
structure Fresh (m : Image) (s : Fs.State) : Prop where
  disk : s.disk = m.disk
  sb : s.sb = Superblock.ofBlock (m.disk 1)
  unread : ∀ k, 0 < (s.icache k).ref → (s.icache k).valid = false
  range : ∀ k, 0 < (s.icache k).ref →
    (s.icache k).dev = ROOTDEV ∧ (s.icache k).inum.toNat < s.sb.ninodes.toNat
  uniq : ∀ k l, 0 < (s.icache k).ref → 0 < (s.icache l).ref →
    (s.icache k).inum = (s.icache l).inum → k = l
  nonneg : ∀ k, 0 ≤ (s.icache k).ref

/-- The entries of the root directory. -/
def rootDirents (files : List Input) : List Dirent :=
  ⟨1, dot⟩ :: ⟨1, dotdot⟩ :: files.mapIdx fun j f => dirent (ofNat (j + 2)) f.base

/-! ### The entries of the root directory -/

section Entries

variable {files : List Input} {m : Image}

theorem fileEntries_eq (n : ℕ) (files : List Input) : fileEntries n files =
    (files.mapIdx fun j f => dirent (ofNat (j + n)) f.base).flatMap entryBytes := by
  induction files generalizing n with
  | nil => rfl
  | cons f files ih =>
    rw [fileEntries, mapIdx_cons, flatMap_cons, zero_add, ih (n + 1)]
    simp only [add_right_comm, add_assoc]

theorem rootBytes_eq (files : List Input) :
    rootBytes files = (rootDirents files).flatMap entryBytes := by
  rw [rootBytes, fileEntries_eq, rootDirents, flatMap_cons, flatMap_cons, append_assoc]

theorem direntAt_nil (j : ℕ) : direntAt (fun _ => 0) j = Dirent.zero := by
  refine Eq.trans (congrArg Dirent.ofBytes (funext fun r => ?_)) Dirent.zero.ofBytes_bytes
  rw [Dirent.bytes]
  split_ifs
  · simp [Dirent.zero, leByte]
  · rw [Dirent.zero, Buf.byte_zero]

/-- The entries in a list of entries. -/
theorem direntAt_flatMap (l : List Dirent) (j : ℕ) :
    direntAt (fun x => (l.flatMap entryBytes).getD x 0) j = l.getD j Dirent.zero := by
  induction l generalizing j with
  | nil => exact direntAt_nil j
  | cons de l ih =>
    have hlen := length_entryBytes de
    rw [flatMap_cons]
    cases j with
    | zero =>
      refine Eq.trans (congrArg Dirent.ofBytes (funext fun r => ?_)) de.ofBytes_bytes
      have hr := r.isLt
      dsimp only
      rw [Nat.mul_zero, Nat.zero_add, getD_append _ _ _ _ (by omega), entryBytes]
      simp
    | succ j =>
      rw [getD_cons_succ, ← ih j]
      refine direntAt_congr fun r hr => ?_
      rw [getD_append_right _ _ _ _ (by omega), hlen,
        show 16 * (j + 1) + r - 16 = 16 * j + r by omega]

theorem Made.direntAt_root (h : Made m files) (j : ℕ) :
    direntAt (content m.final (m.dinode ROOTINO)) j = (rootDirents files).getD j Dirent.zero := by
  rw [← direntAt_flatMap, ← rootBytes_eq, ← funext h.rootData]

/-- What the entries of the root directory are. -/
theorem rootDirents_cases (files : List Input) (j : ℕ) :
    (j = 0 ∧ (rootDirents files).getD j Dirent.zero = ⟨1, dot⟩) ∨
    (j = 1 ∧ (rootDirents files).getD j Dirent.zero = ⟨1, dotdot⟩) ∨
    (∃ i f, j = i + 2 ∧ files[i]? = some f ∧
      (rootDirents files).getD j Dirent.zero = dirent (ofNat (i + 2)) f.base) ∨
    (rootDirents files).getD j Dirent.zero = Dirent.zero := by
  rcases j with _ | _ | i
  · exact .inl ⟨rfl, rfl⟩
  · exact .inr (.inl ⟨rfl, rfl⟩)
  · refine .inr (.inr ?_)
    rw [rootDirents, getD_cons_succ, getD_cons_succ, getD_eq_getElem?_getD, getElem?_mapIdx]
    cases hf : files[i]? with
    | none => exact .inr rfl
    | some f => exact .inl ⟨i, f, rfl, hf, rfl⟩

/-- The inode numbers of the files are in range. -/
theorem Made.file_lt (h : Made m files) {j : ℕ} {f : Input} (hf : files[j]? = some f) :
    j + 2 < 3168 := by
  have hj := (List.getElem?_eq_some_iff.1 hf).1
  have hfree := h.free
  have hlt := (h.file j f hf).lt
  have hcap : ngroups * (BPG - metaPerGroup) = 19305 := by decide
  rw [toNat_ofNat'] at hlt
  unfold blocksOf at hfree
  omega

theorem dirent_inum {n : ℕ} (hn : n < 3168) (name : List UInt8) :
    (dirent (ofNat n) name).inum.toUInt32 = ofNat n := by
  refine UInt32.toNat_inj.1 ?_
  rw [dirent, UInt16.toNat_toUInt32, UInt32.toNat_toUInt16, UInt32.toNat_ofNat']
  omega

end Entries

/-! ### The file system -/

namespace Fresh

variable {m : Image} {files : List Input} {s : Fs.State} {i : UInt32}

theorem final (h : Fresh { m with disk := m.final } s) : s.disk = m.final := h.disk

theorem sb_eq (h : Fresh { m with disk := m.final } s) (hm : Made m files) : s.sb = Mkfs.sb :=
  h.sb.trans (formatted_view (c := fun _ => s.icache 0) (l := []) hm.sound).super

theorem not_loaded (h : Fresh m s) (k : Fs.Slot) : ¬ s.Loaded k := fun hk => by
  rw [State.Loaded, h.unread k hk.1] at hk
  exact Bool.false_ne_true hk.2

variable (h : Fresh { m with disk := m.final } s) (hm : Made m files)

include h hm

theorem dinode (hi : i.toNat < 3168) : s.dinode i = m.dinode i := by
  rw [← dinode_view (m := m) (c := fun _ => s.icache 0) (l := []) hi]
  exact dinode_congr (h.sb_eq hm) (congrFun h.final _)

theorem cur : s.cur = m.cur := by
  have hn : s.sb.ninodes.toNat = 3168 := by rw [h.sb_eq hm]; decide
  funext i
  by_cases hi : i.toNat < 3168
  · rw [cur_disk (by rwa [hn]) fun k hk => absurd hk (h.not_loaded k), h.dinode hm hi,
      Image.cur, if_pos hi]
  · rw [State.cur, if_neg (by rwa [hn]), Image.cur, if_neg hi]

theorem inv : Inv s where
  fmt := by
    rw [h.sb_eq hm, h.final]
    exact formatted_view (c := fun _ => s.icache 0) (l := []) hm.sound
  coh := ⟨h.uniq, h.nonneg, h.range, fun k hk => absurd hk (h.not_loaded k)⟩
  acct := by
    have hused : s.Used = fun b => usedBit Mkfs.sb m.final b = true := by
      funext b
      rw [State.Used, h.sb_eq hm, h.final]
    rw [h.cur hm, h.sb_eq hm, h.final, hused]
    exact hm.books

/-- The one directory is the root. -/
theorem eq_root (hty : (s.cur i).type = T_DIR) : i = ROOTINO := by
  have hi : i.toNat < 3168 := by
    have := (Live.of_dir hty).1
    rwa [h.sb_eq hm, show Mkfs.sb.ninodes.toNat = 3168 by decide] at this
  rw [h.cur hm, Image.cur, if_pos hi] at hty
  rcases hm.inode_cases hi with hroot | ⟨j, f, -, -, hfile⟩ | hzero
  · exact hroot
  · rw [hfile.type] at hty
    exact absurd hty (by decide)
  · rw [hzero] at hty
    exact absurd hty (by decide)

theorem cur_root : s.cur ROOTINO = m.dinode ROOTINO := by
  rw [h.cur hm, Image.cur, if_pos (by decide)]

theorem live_root : Live s.sb s.cur ROOTINO := .of_dir (by rw [h.cur_root hm]; exact hm.root.1)

theorem live_file {j : ℕ} {f : Input}
    (hf : files[j]? = some f) : Live s.sb s.cur (ofNat (j + 2)) := by
  rw [h.cur hm, h.sb_eq hm]
  exact (hm.file j f hf).live (by decide)

/-- What the root directory names is allocated. -/
theorem live_entry {j : ℕ} (hne : ((rootDirents files).getD j Dirent.zero).inum ≠ 0) :
    Live s.sb s.cur ((rootDirents files).getD j Dirent.zero).inum.toUInt32 := by
  rcases rootDirents_cases files j with ⟨-, he⟩ | ⟨-, he⟩ | ⟨i, f, -, hf, he⟩ | he
  · rw [he]
    exact h.live_root hm
  · rw [he]
    exact h.live_root hm
  · rw [he, dirent_inum (hm.file_lt hf)]
    exact h.live_file hm hf
  · rw [he] at hne
    exact absurd rfl hne

theorem lookup_root {name : Buf DIRSIZ} : s.lookup ROOTINO name = some i ↔
      ∃ j, 16 * j + 16 ≤ (m.dinode ROOTINO).size.toNat ∧
        ((rootDirents files).getD j Dirent.zero).Is name ∧
        (∀ j' < j, ¬ ((rootDirents files).getD j' Dirent.zero).Is name) ∧
        ((rootDirents files).getD j Dirent.zero).inum.toUInt32 = i := by
  rw [lookup_eq_some, h.cur_root hm, h.final]
  simp only [hm.direntAt_root, hm.root.1, true_and]

theorem isTree : IsTree s where
  whole i hty := by
    rw [h.eq_root hm hty, h.cur_root hm, hm.root.2.2]
    omega
  root := h.live_root hm
  live i name i' hl := by
    have hty : (s.cur i).type = T_DIR := (lookup_eq_some.1 hl).1
    rw [h.eq_root hm hty, h.lookup_root hm] at hl
    obtain ⟨j, -, his, -, rfl⟩ := hl
    exact h.live_entry hm his.1

theorem wf : Wf (· = ROOTINO) s := by
  refine ⟨h.inv hm, fun i => ⟨fun hi => ?_, fun hl hn => ?_, fun hl hty => ?_, fun hX hl hty => ?_⟩⟩
  · rw [cur_disk hi fun k hk => absurd hk (h.not_loaded k)]
  · rw [h.sb_eq hm, h.cur hm] at hl
    have hi : i.toNat < 3168 := hl.1
    rw [h.cur hm, Image.cur, if_pos hi] at hn
    rcases hm.inode_cases hi with rfl | ⟨j, f, -, -, hfile⟩ | hzero
    · rw [hm.root.2.1] at hn
      exact absurd hn (by decide)
    · rw [hfile.nlink] at hn
      exact absurd hn (by decide)
    · rw [Live, Image.cur, if_pos hi, hzero] at hl
      exact absurd rfl hl.2
  · obtain rfl := h.eq_root hm hty
    rw [h.cur_root hm, h.final]
    intro j _
    rw [hm.direntAt_root]
    by_cases hne : ((rootDirents files).getD j Dirent.zero).inum = 0
    · rw [hne]
      exact (h.inv hm).fmt.geom.root_lt.trans_le' (by decide)
    · have := (h.live_entry hm hne).1
      rwa [UInt16.toNat_toUInt32] at this
  · exact absurd (h.eq_root hm hty) hX

end Fresh

/-! ### Finding the files -/

/-- The name that `mkfs` gives a file. -/
def Input.entry (f : Input) : List UInt8 := f.base.take DIRSIZ

/-- A name that can be looked up. -/
structure Input.Named (f : Input) : Prop where
  nonempty : f.entry ≠ []
  noSlash : slash ∉ f.entry
  noZero : 0 ∉ f.name
  dot : f.entry ≠ [46]
  dotdot : f.entry ≠ [46, 46]

section Names

variable {files : List Input} {m : Image} {s : Fs.State} {f : Input} {l : List UInt8}

theorem str_getD (hl : 0 ∉ l) (n i : ℕ) : str (fun x => l.getD x 0) n i = (l.drop i).take n := by
  induction n generalizing i with
  | zero => rw [str, take_zero]
  | succ n ih =>
    rw [str, ih]
    by_cases hi : i < l.length
    · have hne : l[i] ≠ 0 := fun h => hl (h ▸ getElem_mem hi)
      rw [getD_eq_getElem _ _ hi, if_neg hne, drop_eq_getElem_cons hi, take_succ_cons]
    · rw [if_pos (getD_eq_default _ _ (by omega)), drop_eq_nil_of_le (by omega), take_nil]

theorem key_cut (hl : 0 ∉ l) : key (cut l) = l.take DIRSIZ := by
  rw [key, str_congr (q := fun x => l.getD x 0) (j := 0) fun r hr => ?_, str_getD hl, drop_zero]
  rw [zero_add, Buf.byte, dif_pos hr, cut]

theorem key_dirent (hl : 0 ∉ l) (i : UInt32) : key (dirent i l).name = l.take DIRSIZ := by
  rw [key, dirent, str_strncpy, str_getD hl, drop_zero]

theorem Input.Named.noZero_base (h : f.Named) : 0 ∉ f.base := fun h0 => h.noZero <| by
  rw [Input.base] at h0
  split_ifs at h0
  · exact mem_of_mem_tail h0
  · exact h0

theorem Input.Named.key_cut (h : f.Named) : key (cut f.entry) = f.entry := by
  have hz : 0 ∉ f.entry := fun h0 => h.noZero_base (mem_of_mem_take h0)
  rw [Mkfs.key_cut hz, Input.entry, take_take, min_self]

/-- The path of a file has one segment. -/
theorem Input.Named.names_path (h : f.Named) : names (slash :: f.entry) = [cut f.entry] := by
  have hparts : parts f.entry = [f.entry] := by
    have : parts (f.entry ++ []) = f.entry :: parts [] :=
      parts_append h.nonempty (fun c hc he => h.noSlash (he ▸ hc)) (.inl rfl)
    rwa [append_nil] at this
  rw [names_eq_segments, segments, parts_slash, hparts]
  rfl

/-- **The root directory has the file under its name.** -/
theorem Fresh.lookup_file (h : Fresh { m with disk := m.final } s) (hm : Made m files)
    (hnamed : ∀ f ∈ files, f.Named) (hdist : files.Pairwise fun f g => f.entry ≠ g.entry) {j : ℕ}
    (hf : files[j]? = some f) : s.lookup ROOTINO (cut f.entry) = some (ofNat (j + 2)) := by
  have hmem := mem_of_getElem? hf
  have hkey := (hnamed f hmem).key_cut
  have hde : (rootDirents files).getD (j + 2) Dirent.zero = dirent (ofNat (j + 2)) f.base := by
    rw [rootDirents, getD_cons_succ, getD_cons_succ, getD_eq_getElem?_getD, getElem?_mapIdx, hf]
    rfl
  have hinum := dirent_inum (hm.file_lt hf) f.base
  rw [h.lookup_root hm]
  refine ⟨j + 2, ?_, ⟨fun h0 => ?_, ?_⟩, fun j' hj' his => ?_, by rw [hde, hinum]⟩
  · have := (List.getElem?_eq_some_iff.1 hf).1
    rw [hm.root.2.2]
    omega
  · rw [hde] at h0
    rw [h0] at hinum
    have := congrArg toNat hinum
    have hlt := hm.file_lt hf
    rw [toNat_ofNat', mod_eq_of_lt (by omega)] at this
    exact absurd this (by simp)
  · rw [hde, namecmp_eq_zero, hkey, key_dirent (hnamed f hmem).noZero_base, Input.entry]
  · have hcmp := namecmp_eq_zero.1 his.2
    rw [hkey] at hcmp
    rcases rootDirents_cases files j' with ⟨-, he⟩ | ⟨-, he⟩ | ⟨i, g, rfl, hg, he⟩ | he
    · rw [he] at hcmp
      exact (hnamed f hmem).dot (hcmp.trans (by decide))
    · rw [he] at hcmp
      exact (hnamed f hmem).dotdot (hcmp.trans (by decide))
    · have hmem' := mem_of_getElem? hg
      rw [he, key_dirent (hnamed g hmem').noZero_base] at hcmp
      obtain ⟨hi, rfl⟩ := List.getElem?_eq_some_iff.1 hg
      obtain ⟨hj, rfl⟩ := List.getElem?_eq_some_iff.1 hf
      exact pairwise_iff_getElem.1 hdist i j hi hj (by omega) hcmp.symm
    · rw [he] at his
      exact absurd rfl his.1

/-- `main` stops at a name with a slash. -/
theorem noSlash_of_main {m' : Image} (h : main files m = .ok ((), m')) :
    ∀ f ∈ files, slash ∉ f.name := by
  have hloop : ∀ m, wp (forM files (addFile ROOTINO)) (fun _ => True)
      (fun _ _ => ∀ f ∈ files, slash ∉ f.name) m := by
    intro m
    refine wp_forM (fun l _ => ∀ f ∈ files, f ∈ l ∨ slash ∉ f.name) (fun g l m hl => ?_)
      (fun m hl f hf => (hl f hf).resolve_left not_mem_nil) fun f hf => .inl hf
    unfold addFile
    refine wp_ite.2 ⟨fun _ => wp_panic.2 trivial, fun hg => wp_of_forall fun _ _ f hf => ?_⟩
    rcases hl f hf with hmem | hf
    · rcases mem_cons.1 hmem with rfl | hmem
      · exact .inr hg
      · exact .inl hmem
    · exact .inr hf
  have hmain : wp (main files) (fun _ => True) (fun _ _ => ∀ f ∈ files, slash ∉ f.name) m := by
    unfold main
    rw [wp_bind]
    refine wp_of_forall fun _ m => ?_
    rw [wp_bind]
    refine wp_of_forall fun rootino m => wp_ite.2 ⟨fun _ => wp_panic.2 trivial, fun hroot => ?_⟩
    rw [not_not.1 hroot, wp_bind]
    refine wp_of_forall fun _ m => ?_
    rw [wp_bind]
    refine wp_of_forall fun _ m => ?_
    rw [wp_bind]
    exact wp_mono (hloop m) fun _ m hall => wp_of_forall fun _ _ => hall
  exact post_of_wp hmain h

/-- The file that `namei` returns is read back. -/
theorem Fresh.wp_open (h : Fresh { m with disk := m.final } s) (hm : Made m files)
    (hnamed : ∀ f ∈ files, f.Named) (hdist : files.Pairwise fun f g => f.entry ≠ g.entry)
    (hfit : Fits files) (hlocks : ∀ k, s.locks k = false) (hroom : Room s.refs) (cwd : Fs.Slot)
    {j : ℕ} (hf : files[j]? = some f) :
    wp (namei cwd (slash :: f.entry)) (fun _ => False) (fun r s1 => ∃ ip, r = some ip ∧
      wp (ilock ip) (fun _ => False) (fun _ s2 => (s2.icache ip).type = T_FILE ∧
        (s2.icache ip).nlink = 1 ∧ (s2.icache ip).size.toNat = f.contents.length ∧
        wp (readi ip 0 (s2.icache ip).size) (fun _ => False)
          (fun r _ => r = ((f.contents.length : ℤ), f.contents)) s2) s1) s := by
  have hw := h.wf hm
  have hstart : s.start cwd (slash :: f.entry) = ROOTINO := if_pos rfl
  have hE : Fails (fun _ => False) (∃ k, s.locks k = true) (Room s.refs) True :=
    ⟨fun ⟨k, hk⟩ => by simp [hlocks k] at hk, fun hc => hc hroom, fun hc => hc trivial,
      fun hc => hc trivial⟩
  have hwalk := namex_walked (H := fun _ => 0) false cwd (slash :: f.entry) hE hw
    (fun k => hw.inv.coh.nonneg k) (fun hc => absurd rfl hc)
    fun _ => ⟨h.isTree hm, by rw [hstart]; exact h.live_root hm⟩
  unfold namei
  rw [wp_bind]
  refine wp_mono hwalk fun r s1 hr => ?_
  rw [wp_pure]
  have hfound := hr.found
  rw [Found, if_neg Bool.false_ne_true, (hnamed f (mem_of_getElem? hf)).names_path, walk_cons,
    hstart, h.lookup_file hm hnamed hdist hf] at hfound
  rcases r with _ | ⟨ip, name⟩
  · cases hfound
  have hinum : (s1.icache ip).inum = ofNat (j + 2) := Option.some.inj hfound
  refine ⟨ip, rfl, ?_⟩
  have hlive : Live s1.sb s1.cur (s1.icache ip).inum := by
    rw [hinum]
    exact hr.files.live.2 (h.live_file hm hf)
  have hpos : 0 < (s1.icache ip).ref := hr.refs.pos_self
  have hinv := hr.evolves.wf.inv
  obtain ⟨hinv2, hcur2, hload⟩ := hinv.lockIn hlive hpos
  have hunl : (s1.icache ip).locked = false := (congrFun hr.locks ip).trans (hlocks ip)
  refine wp_ilock_free hinv hpos hunl hlive ?_
  have hfile := hm.file j f hf
  have hcur : s.cur (ofNat (j + 2)) = m.dinode (ofNat (j + 2)) := by
    rw [h.cur hm, Image.cur, if_pos hfile.lt]
  have hentry : ((s1.lockIn ip).icache ip).toDinode = s1.cur (ofNat (j + 2)) := by
    rw [State.lockIn, setInode_self, ← hinum]
  have hinode := hr.files.inode (ofNat (j + 2))
  rw [hcur] at hinode
  have htype : ((s1.lockIn ip).icache ip).type = T_FILE := by rw [hentry, hinode, hfile.type]
  have hsize : ((s1.lockIn ip).icache ip).size.toNat = f.contents.length := by
    rw [hentry, hinode]
    exact hfile.size
  refine ⟨htype, by rw [hentry, hinode]; exact hfile.nlink, hsize, ?_⟩
  have hmax := hfit.size f (mem_of_getElem? hf)
  simp only [MAXFILE, BSIZE] at hmax
  have hdata : ∀ x < f.contents.length, (s1.lockIn ip).data ip x = f.contents.getD x 0 := by
    intro x hx
    have hcont := hr.files.content _ (h.live_file hm hf) x (by rw [hcur, hfile.size]; exact hx)
    rw [State.data, hentry, State.lockIn, setInode_disk, hcont, hcur, h.final, hfile.data]
  refine wp_readi hinv2 hload (by rw [htype]; decide) (fun hbad => ?_) fun n s3 _ _ hn _ _ => ?_
  · rw [hsize] at hbad
    simp only [UInt32.toNat_zero] at hbad
    omega
  · obtain rfl : n = f.contents.length := by
      rw [hn, hsize]
      simp
    rw [toInt_eq (by rw [toNat_ofNat']; omega), toNat_ofNat', mod_eq_of_lt (by omega)]
    refine Prod.ext rfl (Eq.trans (map_congr_left fun x hx => ?_) (map_getD_range f.contents))
    rw [← hdata x (mem_range.1 hx), UInt32.toNat_zero, zero_add]

/-- **`mkfs` and the kernel agree on the format.**  For files with distinct names that fit the
disk, `mkfs` succeeds unless a name has a slash past its first `DIRSIZ` bytes.  On the image it
writes, a kernel that has read no inode yet finds each file by its name, and reads an inode of
type `T_FILE` with one link and the length of the file, and the bytes of the file. -/
theorem mkfs_format (hnamed : ∀ f ∈ files, f.Named)
    (hdist : files.Pairwise fun f g => f.entry ≠ g.entry) (hfit : Fits files)
    (hread : ∀ f ∈ files, ∀ buf ∈ f.pieces, buf ≠ []) :
    ((∀ f ∈ files, slash ∉ f.name) → ∃ m, main files Image.init = .ok ((), m)) ∧
    ∀ m, main files Image.init = .ok ((), m) → ∀ s, Fresh m s → (∀ k, s.locks k = false) →
      Room s.refs → ∀ f ∈ files, ∀ cwd,
        ∃ ip s₁ s₂ s₃, namei cwd (slash :: f.entry) s = .ok (some ip, s₁) ∧
          ilock ip s₁ = .ok ((), s₂) ∧ (s₂.icache ip).type = T_FILE ∧
          (s₂.icache ip).nlink = 1 ∧ (s₂.icache ip).size.toNat = f.contents.length ∧
          readi ip 0 (s₂.icache ip).size s₂ = .ok ((f.contents.length, f.contents), s₃) := by
  refine ⟨fun hslash => ?_, fun m' hmain s hs hlocks hroom f hf cwd => ?_⟩
  · obtain ⟨m, hmain, -⟩ := main_made (fun f hf => ⟨hslash f hf, hread f hf⟩) hfit
    exact ⟨_, hmain⟩
  · obtain ⟨m, hmain', hmade⟩ :=
      main_made (fun f hf => ⟨noSlash_of_main hmain f hf, hread f hf⟩) hfit
    obtain rfl : { m with disk := m.final } = m' := by
      rw [hmain] at hmain'
      exact (congrArg Prod.snd (Except.ok.inj hmain')).symm
    obtain ⟨j, hj⟩ := getElem?_of_mem hf
    obtain ⟨r, s₁, hnamei, ip, rfl, hlock⟩ :=
      exists_ok_of_wp (hs.wp_open hmade hnamed hdist hfit hlocks hroom cwd hj)
    obtain ⟨u, s₂, hilock, htype, hnlink, hsize, hwp⟩ := exists_ok_of_wp hlock
    obtain ⟨_, s₃, hreadi, rfl⟩ := exists_ok_of_wp hwp
    exact ⟨ip, s₁, s₂, s₃, hnamei, hilock, htype, hnlink, hsize, hreadi⟩

/-- The kernel on the image, with nothing in the inode cache. -/
def Image.booted (m : Image) : Fs.State :=
  ⟨m.disk, Superblock.ofBlock (m.disk 1), fun _ => ⟨Dinode.zero, 0, 0, 0, false, false⟩,
    fun _ => ⟨none, none⟩, [], []⟩

theorem fresh_booted (m : Image) : Fresh m m.booted :=
  ⟨rfl, rfl, fun _ hk => absurd hk (lt_irrefl 0), fun _ hk => absurd hk (lt_irrefl 0),
    fun _ _ hk => absurd hk (lt_irrefl 0), fun _ => le_rfl⟩

theorem room_booted (m : Image) : Room m.booted.refs := ⟨0, 1, by decide, rfl, rfl⟩

theorem named_sampleFiles : ∀ f ∈ sampleFiles, f.Named := by
  intro f hf
  rcases mem_pair.1 hf with rfl | rfl
  · exact ⟨by decide, by decide, by decide, by decide, by decide⟩
  · exact ⟨by decide, by decide, by decide, by decide, by decide⟩

/-- The hypotheses of `mkfs_format` are satisfiable. -/
theorem mkfs_format_sample : ∃ m ip s₁, main sampleFiles Image.init = .ok ((), m) ∧
    namei 0 [slash, 115, 104] m.booted = .ok (some ip, s₁) := by
  obtain ⟨hok, hall⟩ := mkfs_format named_sampleFiles (by decide)
    ⟨by decide, by decide, by decide⟩ (by decide)
  obtain ⟨m, hmain⟩ := hok (by decide)
  obtain ⟨ip, s₁, -, -, hnamei, -⟩ := hall m hmain _ (fresh_booted m) (fun _ => rfl) (room_booted m)
    ⟨[95, 115, 104], [[104, 105], [33]]⟩ mem_cons_self 0
  exact ⟨m, ip, s₁, hmain, hnamei⟩

end Names
end Xv6.Mkfs
