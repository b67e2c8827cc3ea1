/-
# Growing and shrinking a process

What `allocuvm` and `deallocuvm` of `vm.c` and `growproc` of `proc.c` do to the user pages of one
page table, to their contents and to the free list.

* `uvm_exact`: on every two-level page table `deallocuvm` unmaps and frees exactly the present pages
  between the two sizes, and `allocuvm` maps exactly the pages between the two sizes to zeroed
  frames or gives everything back; the first undoes the second. What `allocuvm` returns is the
  larger of the two sizes, so `oldsz` where that is the larger one (`allocuvm_oldsz`).
* `growproc_ok_iff`: `growproc(n)` leaves the address space alone when it fails and in step with
  `sz` when it does not, except that a process that gives up all of its memory is told that the call
  failed (`growproc_all`): `deallocuvm` returns the new size 0, and `growproc` takes that for an
  error.
-/
import Xv6.Vm.Owner

namespace Xv6.Vm

open Lib Multiset Nat Ptable

variable {L : Layout} {A D H : Multiset ℕ} {s0 s s' : Phys} {l l' : List ℕ}
  {d n sz oldsz newsz : ℕ} {E : Fail → Prop} {k : Kernel}

/-! ## Page tables -/

/-- **A two-level page table**, beside the free list `l`: the directory, the page tables and the
user pages are pages of memory, no two of them the same, and none of them is free. -/
structure TwoLevel (L : Layout) (s : Phys) (l : List ℕ) (d : ℕ) : Prop where
  free : Free s.mem s.freelist l
  nodup : ((l : Multiset ℕ) + pages s.mem d).Nodup
  ram : ∀ n ∈ (l : Multiset ℕ) + pages s.mem d, L.Ram n

theorem TwoLevel.own (h : TwoLevel L s l d) : Own L (l + pages s.mem d) s s l {d} 0 :=
  ⟨h.nodup, h.ram, h.free, by rw [singleton_bind, add_zero], fun _ _ => rfl, rfl⟩

theorem Own.twoLevel (h : Own L A s0 s l (d ::ₘ D) H) : TwoLevel L s l d := by
  have hle : (l : Multiset ℕ) + pages s.mem d ≤ A := by
    rw [← h.sum, cons_bind, ← add_assoc, add_assoc]
    exact le_add_right _ _
  exact ⟨h.free, nodup_of_le hle h.nodup, fun n hn => h.ram n (mem_of_le hle hn)⟩

/-- The frames of the present pages with addresses from `lo` up to `hi`. -/
def frames (mem : ℕ → Page) (d lo hi : ℕ) : Multiset ℕ :=
  picks (fun u => if lo ≤ u * PGSIZE ∧ u * PGSIZE < hi then target (pte mem d u) else none)
    USERPAGES

/-- The pages from a size on are those from the rounded size on. -/
theorem roundUp_le {u : ℕ} : PGROUNDUP sz ≤ u * PGSIZE ↔ sz ≤ u * PGSIZE :=
  (Nat.mul_le_mul_right_iff (by decide)).trans (roundUp_le_iff sz u)

theorem Shrunk.target {f g : ℕ → UInt32} (h : Shrunk f g) (u : ℕ) :
    Vm.target (g u) = Vm.target (f u) := by
  rcases h u with heq | ⟨h1, h2⟩
  · rw [heq]
  · rw [target_eq_none.2 h1, target_eq_none.2 h2]

/-! ## deallocuvm and allocuvm -/

/-- Equal sums without an equal part. -/
theorem sum_cancel {a b c t t' o h : Multiset ℕ}
    (heq : a + d ::ₘ (t + o) + h = b + d ::ₘ (t' + (c + o)) + h) : a + t = b + t' + c := by
  rw [← singleton_add, ← singleton_add] at heq
  refine add_right_cancel (b := {d} + o + h) (Eq.trans ?_ (heq.trans ?_)) <;> abel

/-- The frames that `deallocuvm` frees. -/
theorem free_unmapped (hun : Unmapped s s' d newsz oldsz) (h : Own L A s0 s l {d} H)
    (h' : Own L A s0 s' l' {d} H) :
    (l' : Multiset ℕ) = l + frames s.mem d (PGROUNDUP newsz) oldsz := by
  have hsum := h'.sum_singleton.trans h.sum_singleton.symm
  have hsplit := picks_split (fun u => PGROUNDUP newsz ≤ u * PGSIZE ∧ u * PGSIZE < oldsz)
    (fun u => target (pte s.mem d u)) USERPAGES
  have husers : users s'.mem d =
    picks (fun u => if PGROUNDUP newsz ≤ u * PGSIZE ∧ u * PGSIZE < oldsz
      then none else target (pte s.mem d u)) USERPAGES := by
    refine picks_congr fun u _ => ?_
    rw [hun.pte]
    simp only [roundUp_le]
    split_ifs with hin
    · exact target_eq_none.2 (present_cleared _)
    · rfl
  rw [pages, pages, tables, tables, hun.tab, husers, users, hsplit] at hsum
  have hcancel := sum_cancel hsum
  rw [add_right_comm] at hcancel
  exact add_right_cancel hcancel

/-- The pages that are left after `deallocuvm`. -/
theorem page_unmapped {u : ℕ} (hun : Unmapped s s' d newsz oldsz) (h : Own L A s0 s l {d} H)
    (hu : u < USERPAGES) :
    page s'.mem d u = if newsz ≤ u * PGSIZE ∧ u * PGSIZE < oldsz then none else page s.mem d u := by
  split_ifs with hin
  · rw [page, hun.pte, if_pos hin, target_eq_none.2 (present_cleared _), Option.map_none]
  · refine page_eq h hu (by rw [hun.pte, if_neg hin]) fun m _ hmd hmt ht =>
      hun.mem m hmd hmt fun v hv h1 h2 hvm => hin ?_
    have hnodup := h.nodup_pages
    rw [pages, nodup_cons, nodup_add] at hnodup
    rw [← picks_inj hnodup.2.2.1 hv hu hvm ht]
    exact ⟨h1, h2⟩

/-- The frames that `allocuvm` takes, beside page tables. -/
theorem free_allocated (ha : Allocated s s' l l' d oldsz newsz) (h : Own L A s0 s l {d} H)
    (hno : ∀ u, oldsz ≤ u * PGSIZE → u * PGSIZE < newsz → present (pte s.mem d u) = false)
    (h' : Own L A s0 s' l' {d} H) :
    (l : Multiset ℕ) + tables s.mem d =
      l' + tables s'.mem d + frames s'.mem d (PGROUNDUP oldsz) newsz := by
  have hsum := h.sum_singleton.trans h'.sum_singleton.symm
  have hsplit := picks_split (fun u => PGROUNDUP oldsz ≤ u * PGSIZE ∧ u * PGSIZE < newsz)
    (fun u => target (pte s'.mem d u)) USERPAGES
  have husers : users s.mem d = picks (fun u => if PGROUNDUP oldsz ≤ u * PGSIZE ∧ u * PGSIZE < newsz
      then none else target (pte s'.mem d u)) USERPAGES := by
    refine picks_congr fun u _ => ?_
    simp only [roundUp_le]
    split_ifs with hin
    · exact target_eq_none.2 (hno u hin.1 hin.2)
    · rw [ha.old u hin]
  rw [pages, pages, husers, users, hsplit] at hsum
  exact sum_cancel hsum

/-- What `deallocuvm(pgdir, oldsz, newsz)` must do: it returns, the entries of exactly the present
pages from `PGROUNDUP(newsz)` up to `oldsz` are cleared, and their frames, each once, are all that
the free list gains. -/
def DeallocExact (L : Layout) (s : Phys) (l : List ℕ) (d oldsz newsz : ℕ) : Prop :=
  ∃ s' l', deallocuvm L d oldsz newsz s = .ok (min oldsz newsz, s') ∧ TwoLevel L s' l' d ∧
    (∀ u, pte s'.mem d u = if PGROUNDUP newsz ≤ u * PGSIZE ∧ u * PGSIZE < oldsz ∧
      present (pte s.mem d u) = true then 0 else pte s.mem d u) ∧
    (l' : Multiset ℕ) = l + frames s.mem d (PGROUNDUP newsz) oldsz

/-- The pages from `PGROUNDUP(oldsz)` up to `newsz` are mapped to zeroed frames that were free, and
no other entry has changed; the frames and the new page tables, each once, are all that the free
list has lost. -/
structure Maps (s s' : Phys) (l l' : List ℕ) (d oldsz newsz : ℕ) : Prop where
  new : ∀ u, PGROUNDUP oldsz ≤ u * PGSIZE → u * PGSIZE < newsz → ∃ n ∈ l,
    pte s'.mem d u = mkPte (n * PGSIZE) (PTE_W ||| PTE_U) ∧ s'.mem n = fun _ => 0
  old : ∀ u, ¬(PGROUNDUP oldsz ≤ u * PGSIZE ∧ u * PGSIZE < newsz) →
    pte s'.mem d u = pte s.mem d u
  free : (l : Multiset ℕ) + tables s.mem d =
    l' + tables s'.mem d + frames s'.mem d (PGROUNDUP oldsz) newsz

/-- The same pages are mapped to the same frames, and the free pages are those of before without the
added page tables, which are empty. -/
structure GivesBack (s s' : Phys) (l l' : List ℕ) (d : ℕ) : Prop where
  same : ∀ u, target (pte s'.mem d u) = target (pte s.mem d u)
  tab : ∀ i t, tab s.mem d i = some t → tab s'.mem d i = some t
  empty : ∀ i t, Vm.tab s.mem d i = none → Vm.tab s'.mem d i = some t →
    ∀ j < NPDENTRIES, present (word s'.mem t j) = false
  free : (l' : Multiset ℕ) + tables s'.mem d = l + tables s.mem d

/-- What `allocuvm(pgdir, oldsz, newsz)` must do, where it returns `size` on success; `deallocuvm`
then takes the pages away again. -/
def AllocExact (L : Layout) (s : Phys) (l : List ℕ) (d oldsz newsz size : ℕ) : Prop :=
  ∃ r s' l', allocuvm L d oldsz newsz s = .ok (r, s') ∧ TwoLevel L s' l' d ∧
    ((r = size ∧ Maps s s' l l' d oldsz newsz ∧
        ∃ r' s'', deallocuvm L d newsz oldsz s' = .ok (r', s'') ∧
          ∀ u, present (pte s''.mem d u) = present (pte s.mem d u)) ∨
      (r = 0 ∧ GivesBack s s' l l' d))

theorem deallocExact (h : TwoLevel L s l d) (hold : oldsz ≤ KERNBASE) :
    DeallocExact L s l d oldsz newsz := by
  have hwp : wp (deallocuvm L d oldsz newsz) (fun _ => False) (fun r s' => ∃ l',
      r = min oldsz newsz ∧ Own L (l + pages s.mem d) s s' l' {d} 0 ∧
        Unmapped s s' d newsz oldsz) s :=
    wp_deallocuvm hold h.own fun l' s' hown hun => ⟨l', by split_ifs <;> omega, hown, hun⟩
  obtain ⟨r, s', hs', l', hr, hown, hun⟩ := exists_ok_of_wp hwp
  rw [hr] at hs'
  refine ⟨s', l', hs', Own.twoLevel hown, fun u => ?_, free_unmapped hun h.own hown⟩
  rw [hun.pte]
  simp only [roundUp_le]
  by_cases hin : newsz ≤ u * PGSIZE ∧ u * PGSIZE < oldsz
  · rw [if_pos hin, cleared]
    simp only [hin.1, hin.2, true_and]
  · rw [if_neg hin, if_neg fun hc => hin ⟨hc.1, hc.2.1⟩]

/-- An added page table is empty. -/
theorem Restored.givesBack (hr : Restored s s' l d) (h : Own L A s0 s l {d} H)
    (h' : Own L A s0 s' l' {d} H) : GivesBack s s' l l' d := by
  refine ⟨hr.pte.target, hr.tab, fun i t hi ht j hj => ?_, ?_⟩
  · have hdiv : (i * NPDENTRIES + j) / NPDENTRIES = i := by
      rw [mul_comm, mul_add_div (by decide), div_eq_of_lt hj, add_zero]
    have hmod : (i * NPDENTRIES + j) % NPDENTRIES = j := by
      rw [mul_comm, mul_add_mod, mod_eq_of_lt hj]
    have hpte : Vm.pte s'.mem d (i * NPDENTRIES + j) = word s'.mem t j := by
      rw [Vm.pte, hdiv, ht, hmod]
    have hnone := hr.pte.target (i * NPDENTRIES + j)
    rw [hpte, Vm.pte, hdiv, hi, target_zero] at hnone
    exact target_eq_none.1 hnone
  · have hsum := h'.sum_singleton.trans h.sum_singleton.symm
    have husers : users s'.mem d = users s.mem d := picks_congr fun u _ => hr.pte.target u
    rw [pages, pages, husers] at hsum
    have hzero : l + d ::ₘ (tables s.mem d + users s.mem d) + H =
        l + d ::ₘ (tables s.mem d + (0 + users s.mem d)) + H := by rw [zero_add (users s.mem d)]
    have hcancel := sum_cancel (hsum.trans hzero)
    rwa [add_zero] at hcancel

theorem allocExact (h : TwoLevel L s l d) (hnew : newsz < KERNBASE)
    (hno : ∀ u, PGROUNDUP oldsz ≤ u * PGSIZE → u * PGSIZE < newsz →
      present (pte s.mem d u) = false) :
    AllocExact L s l d oldsz newsz (max oldsz newsz) := by
  simp only [roundUp_le] at hno
  obtain ⟨r, s', hs', l', hown, hpost⟩ := exists_ok_of_wp
    (wp_allocuvm (Q := fun r s' => ∃ l', Own L (l + pages s.mem d) s s' l' {d} 0 ∧
      ((r = max oldsz newsz ∧ Allocated s s' l l' d oldsz newsz) ∨ (r = 0 ∧ Restored s s' l d)))
      h.own (fun _ => hno) (fun l' s' hown hr _ => ⟨l', hown, .inr ⟨rfl, hr⟩⟩)
      fun _ l' s' hown ha => ⟨l', hown, .inl ⟨rfl, ha⟩⟩)
  refine ⟨r, s', l', hs', Own.twoLevel hown, hpost.imp ?_ ?_⟩
  · rintro ⟨hr, ha⟩
    refine ⟨hr, ⟨fun u hu => ha.new u (roundUp_le.1 hu), fun u hu => ha.old u ?_,
      free_allocated ha h.own hno hown⟩, ?_⟩
    · rwa [roundUp_le] at hu
    · obtain ⟨s'', l'', hs'', -, hpte, -⟩ : DeallocExact L s' l' d newsz oldsz :=
        deallocExact (Own.twoLevel hown) hnew.le
      refine ⟨_, s'', hs'', fun u => ?_⟩
      rw [hpte]
      simp only [roundUp_le]
      by_cases hin : oldsz ≤ u * PGSIZE ∧ u * PGSIZE < newsz
      · rw [hno u hin.1 hin.2]
        cases hp : present (pte s'.mem d u) with
        | true => rw [if_pos ⟨hin.1, hin.2, rfl⟩]; rfl
        | false => rw [if_neg (by simp), hp]
      · rw [if_neg fun hc => hin ⟨hc.1, hc.2.1⟩, ha.old u hin]
  · rintro ⟨hr, hres⟩
    exact ⟨hr, hres.givesBack h.own hown⟩

/-- The page table of the first process. -/
theorem Booted.twoLevel (h : Booted L k) :
    ∃ l, TwoLevel L k.phys l (k.proc k.initproc).pgdir := by
  obtain ⟨l, hown⟩ := h.inv.own
  rw [Kernel.spaces_cons (p := k.initproc) (by rw [h.running]; decide)] at hown
  exact ⟨l, Own.twoLevel hown⟩

/-- **`deallocuvm` and `allocuvm` have exact effect** on every two-level page table. On success
`allocuvm` returns the larger of the two sizes. -/
theorem uvm_exact (h : TwoLevel L s l d) (hold : oldsz ≤ KERNBASE) :
    DeallocExact L s l d oldsz newsz ∧
      (newsz < KERNBASE →
        (∀ u, PGROUNDUP oldsz ≤ u * PGSIZE → u * PGSIZE < newsz → present (pte s.mem d u) = false) →
        AllocExact L s l d oldsz newsz (max oldsz newsz)) :=
  ⟨deallocExact h hold, fun hnew hno => allocExact h hnew hno⟩

/-- The hypotheses of `uvm_exact` are satisfiable: the page table of the first process, which gives
up its page or gets another one. -/
theorem uvm_exact_booted : ∃ L s l d, TwoLevel L s l d ∧ DeallocExact L s l d 4096 0 ∧
    AllocExact L s l d 4096 8192 8192 := by
  obtain ⟨k, hk⟩ := exists_booted
  obtain ⟨l, h⟩ := hk.twoLevel
  refine ⟨_, _, l, _, h, (uvm_exact h (by decide)).1,
    (uvm_exact h (by decide)).2 (by decide) fun u hu hlt => ?_⟩
  exact hk.sized.absent (user_of_lt (show 8192 ≤ KERNBASE by decide) hlt) (roundUp_le.1 hu)

/-- With an old size that is the larger one, `allocuvm` does not return the new size. -/
theorem allocuvm_oldsz : ∃ L s l d, TwoLevel L s l d ∧
    (∀ u, PGROUNDUP 8192 ≤ u * PGSIZE → u * PGSIZE < 4096 → present (pte s.mem d u) = false) ∧
    ¬ AllocExact L s l d 8192 4096 4096 := by
  obtain ⟨k, hk⟩ := exists_booted
  obtain ⟨l, h⟩ := hk.twoLevel
  refine ⟨_, _, l, _, h, fun u hu hlt => ?_, ?_⟩
  · exact absurd ((show 4096 ≤ PGROUNDUP 8192 by decide).trans hu) (not_le.2 hlt)
  · rintro ⟨r, s', l', hs', -, hpost⟩
    have heq : allocuvm Layout.image (k.proc k.initproc).pgdir 8192 4096 k.phys =
        .ok (8192, k.phys) := rfl
    rw [heq] at hs'
    cases hs'
    rcases hpost with ⟨hr, -⟩ | ⟨hr, -⟩ <;> cases hr

/-! ## growproc -/

/-- The mapped user pages are exactly those at the page addresses below `sz`. -/
def InStep (mem : ℕ → Page) (d sz : ℕ) : Prop := Sized (pte mem d) sz ∧ sz ≤ KERNBASE

/-- The first process and its page table. -/
theorem Booted.inStep (h : Booted L k) :
    InStep k.phys.mem (k.proc k.initproc).pgdir (k.proc k.initproc).sz := by
  rw [h.sz]
  exact ⟨h.sized, by decide⟩

/-- What `growproc(n)` must do: if it returns -1, the size and the mapped pages with their contents
are as before, and if it returns 0, the mapped pages are those below the new size. -/
def GrowprocOk (L : Layout) (k : Kernel) (p : Slot) (n : Int32) : Prop :=
  ∃ r k', growproc L p n k = .ok (r, k') ∧ (k'.proc p).pgdir = (k.proc p).pgdir ∧
    ((r = -1 ∧ (k'.proc p).sz = (k.proc p).sz ∧ ∀ u < USERPAGES,
        page k'.phys.mem (k.proc p).pgdir u = page k.phys.mem (k.proc p).pgdir u) ∨
      (r = 0 ∧ InStep k'.phys.mem (k.proc p).pgdir (k'.proc p).sz))

/-- Shrinking keeps the mapping in step. -/
theorem InStep.unmapped (h : InStep s.mem d oldsz) (hun : Unmapped s s' d newsz oldsz) :
    InStep s'.mem d (min oldsz newsz) := by
  refine ⟨fun u hu => ?_, (min_le_left _ _).trans h.2⟩
  rw [hun.pte]
  by_cases hin : newsz ≤ u * PGSIZE ∧ u * PGSIZE < oldsz
  · rw [if_pos hin, present_cleared]
    exact ⟨fun hp => (by cases hp), fun hlt => absurd hin.1 (by omega)⟩
  · rw [if_neg hin, h.1 u hu]
    omega

/-- **`growproc`**: what it does to the process `p` alone, with the one case in which it returns -1
and has unmapped the pages. -/
theorem wp_growproc {p : Slot} {n : Int32} (h : TwoLevel L k.phys l (k.proc p).pgdir)
    (hs : InStep k.phys.mem (k.proc p).pgdir (k.proc p).sz) :
    wp (growproc L p n) (fun _ => False) (fun r k' => (k'.proc p).pgdir = (k.proc p).pgdir ∧
      ((r = -1 ∧ (k'.proc p).sz = (k.proc p).sz ∧ ∀ u < USERPAGES,
          page k'.phys.mem (k.proc p).pgdir u =
            if 0 < (k.proc p).sz ∧ n.toInt = -(k.proc p).sz then none
            else page k.phys.mem (k.proc p).pgdir u) ∨
        (r = 0 ∧ ¬(0 < (k.proc p).sz ∧ n.toInt = -(k.proc p).sz) ∧
          InStep k'.phys.mem (k.proc p).pgdir (k'.proc p).sz))) k := by
  have hsz := hs.2
  have hlt := n.toInt_lt
  have hle := n.le_toInt
  rw [growproc, wp_bind, wp_get]
  dsimp only
  generalize hnew : (((k.proc p).sz + n.toInt) % 2 ^ 32).toNat = newsz
  refine wp_ite.2 ⟨fun hpos => wp_ite.2 ⟨fun _ => ?_, fun hmax => ?_⟩,
    fun hpos => wp_ite.2 ⟨fun hneg => ?_, fun hneg => ?_⟩⟩
  · rw [wp_pure]
    exact ⟨rfl, .inl ⟨rfl, rfl, fun u _ => by rw [if_neg (by omega)]⟩⟩
  · have hsum : newsz = (k.proc p).sz + n.toInt.toNat := by
      simp only [KERNBASE] at hsz
      omega
    have hno : ∀ u, (k.proc p).sz ≤ u * PGSIZE → u * PGSIZE < newsz →
        present (pte k.phys.mem (k.proc p).pgdir u) = false := fun u hu hu' =>
      hs.1.absent (user_of_lt (Nat.le_of_not_lt hmax) hu') hu
    rw [wp_bind, wp_onPhys]
    refine wp_allocuvm h.own (fun _ => hno) (fun l' s' _ hr _ => ?_) fun hk l' s' _ ha => ?_
    · rw [if_pos rfl, wp_pure]
      refine ⟨rfl, .inl ⟨rfl, rfl, fun u hu => ?_⟩⟩
      rw [if_neg (by omega)]
      exact page_eq h.own hu (hr.pte.target u) fun m hml hmd hmt _ => hr.mem m hml hmd hmt
    · rw [if_neg (by omega), wp_bind, wp_setProc, wp_pure]
      dsimp only
      rw [Function.update_self]
      exact ⟨rfl, .inr ⟨rfl, by omega, hs.1.grown (ha.grown h.own), max_le hsz hk.le⟩⟩
  · rw [wp_bind, wp_onPhys]
    refine wp_deallocuvm hsz h.own fun l' s' _ hun => ?_
    have hstep := hs.unmapped hun
    have hmin : (if newsz ≥ (k.proc p).sz then (k.proc p).sz else newsz) =
        min (k.proc p).sz newsz := by
      split_ifs <;> omega
    rw [hmin]
    refine wp_ite.2 ⟨fun hzero => ?_, fun hzero => ?_⟩
    · rw [wp_pure]
      refine ⟨rfl, .inl ⟨rfl, rfl, fun u hu => ?_⟩⟩
      dsimp only
      rw [page_unmapped hun h.own hu]
      by_cases hz : 0 < (k.proc p).sz
      · have hall : n.toInt = -(k.proc p).sz := by
          simp only [KERNBASE] at hsz
          omega
        rw [if_pos (show 0 < (k.proc p).sz ∧ n.toInt = -(k.proc p).sz from ⟨hz, hall⟩)]
        split_ifs with hin
        · rfl
        · rw [page, target_eq_none.2 (hs.1.absent hu (by omega)), Option.map_none]
      · rw [if_neg (by omega), if_neg (by omega)]
    · rw [wp_bind, wp_setProc, wp_pure]
      dsimp only
      rw [Function.update_self]
      refine ⟨rfl, .inr ⟨rfl, ?_, hstep⟩⟩
      simp only [KERNBASE] at hsz
      omega
  · rw [wp_pure]
    exact ⟨rfl, .inr ⟨rfl, by omega, hs⟩⟩

/-- A process that gives up all of its memory is told that the call failed. -/
theorem not_growprocOk {p : Slot} {n : Int32}
    (h : TwoLevel L k.phys l (k.proc p).pgdir)
    (hs : InStep k.phys.mem (k.proc p).pgdir (k.proc p).sz)
    (hall : 0 < (k.proc p).sz ∧ n.toInt = -(k.proc p).sz) : ¬ GrowprocOk L k p n := by
  obtain ⟨r, k', hk', -, hpost⟩ := exists_ok_of_wp (wp_growproc (n := n) h hs)
  rintro ⟨r1, k1, hk1, -, hpost1⟩
  rw [hk'] at hk1
  cases hk1
  rcases hpost with ⟨hr, -, hpages⟩ | ⟨-, hnot, -⟩
  · rcases hpost1 with ⟨-, -, hsame⟩ | ⟨hr1, -⟩
    · -- page 0 was mapped and is not
      have h0 : 0 < USERPAGES := by decide
      have hp := hs.1.present hs.2 (u := 0) (by omega)
      have hpage := (hpages 0 h0).symm.trans (hsame 0 h0)
      rw [if_pos hall, page, target_eq_some.2 ⟨hp, rfl⟩] at hpage
      cases hpage
    · rw [hr] at hr1
      cases hr1
  · exact hnot hall

/-- **`growproc(n)` keeps the address space in step with `sz`, in success and in failure, unless the
process gives up all of its memory.** -/
theorem growproc_ok_iff {k : Kernel} {p : Slot} {n : Int32}
    (h : TwoLevel L k.phys l (k.proc p).pgdir)
    (hs : InStep k.phys.mem (k.proc p).pgdir (k.proc p).sz) :
    GrowprocOk L k p n ↔ ¬(0 < (k.proc p).sz ∧ n.toInt = -(k.proc p).sz) := by
  refine ⟨fun hok hall => not_growprocOk h hs hall hok, fun hnot => ?_⟩
  obtain ⟨r, k', hk', hdir, hpost⟩ := exists_ok_of_wp (wp_growproc (n := n) h hs)
  refine ⟨r, k', hk', hdir, ?_⟩
  rcases hpost with ⟨hr, hsz, hpages⟩ | ⟨hr, -, hstep⟩
  · refine .inl ⟨hr, hsz, fun u hu => ?_⟩
    rw [hpages u hu, if_neg hnot]
  · exact .inr ⟨hr, hstep⟩

/-- A process with one page that calls `sbrk(-4096)` loses the page, and the call returns -1. -/
theorem growproc_all : ∃ L k p l, TwoLevel L k.phys l (k.proc p).pgdir ∧
    InStep k.phys.mem (k.proc p).pgdir (k.proc p).sz ∧ (k.proc p).sz = 4096 ∧
    ¬ GrowprocOk L k p (-4096) := by
  obtain ⟨k, hk⟩ := exists_booted
  obtain ⟨l, h⟩ := hk.twoLevel
  refine ⟨_, k, k.initproc, l, h, hk.inStep, hk.sz, not_growprocOk h hk.inStep ?_⟩
  rw [hk.sz]
  decide

/-- The hypotheses of `growproc_ok_iff` are satisfiable: the first process. -/
theorem growproc_ok_iff_booted : ∃ L k p, GrowprocOk L k p 4096 ∧ GrowprocOk L k p 0 := by
  obtain ⟨k, hk⟩ := exists_booted
  obtain ⟨l, h⟩ := hk.twoLevel
  exact ⟨_, k, k.initproc, (growproc_ok_iff h hk.inStep).2 (by rw [hk.sz]; decide),
    (growproc_ok_iff h hk.inStep).2 (by rw [hk.sz]; decide)⟩

end Xv6.Vm
