/-
# What the functions of vm.c do to a space

One specification for each function, in terms of the entries of the space (`pte`) and of who owns
which page (`Own`). All of them are total: under their preconditions no function ends in a panic.
-/
import Xv6.Vm.Calls

namespace Xv6.Vm

open Function Lib Multiset Nat

variable {L : Layout} {A D H : Multiset ℕ} {s₀ s s' : Phys} {l : List ℕ} {d n t v va perm oldsz : ℕ}
  {E : Fail → Prop} {Q : Unit → Phys → Prop} {hi i k p : ℕ}

/-! ## Loads and stores -/

@[simp] theorem wp_getWord {Q : UInt32 → Phys → Prop} :
    wp (getWord n i) E Q s ↔ Q (word s.mem n i) s := by
  rw [getWord]
  simp only [wp_bind, wp_get, wp_pure]

@[simp] theorem wp_setPage {b : Page} :
    wp (setPage n b) E Q s ↔ Q () { s with mem := update s.mem n b } := by
  rw [setPage, wp_modify]

@[simp] theorem wp_putWord {w : UInt32} : wp (putWord n i w) E Q s ↔ Q () (s.put n i w) := by
  rw [putWord]
  simp only [wp_bind, wp_get, wp_setPage]

@[simp] theorem wp_memset {c : UInt8} :
    wp (memset n c) E Q s ↔ Q () { s with mem := update s.mem n fun _ => c } := by
  rw [memset, wp_setPage]

theorem pdx_mul (v : ℕ) : pdx (v * PGSIZE) = v / NPDENTRIES := by
  simp only [pdx, PGSIZE, NPDENTRIES]
  omega

theorem ptx_mul (v : ℕ) : ptx (v * PGSIZE) = v % NPDENTRIES := by
  rw [ptx, show (2 : ℕ) ^ 12 = PGSIZE from rfl, Nat.mul_div_cancel v (by decide)]

theorem vpn_eq (v : ℕ) : v / NPDENTRIES * NPDENTRIES + v % NPDENTRIES = v :=
  div_add_mod' v NPDENTRIES

theorem succ_page (h : v + 1 < 2 ^ 20) : (v * PGSIZE + PGSIZE) % 2 ^ 32 = (v + 1) * PGSIZE := by
  simp only [PGSIZE]
  omega

theorem rounds_eq (h : v + (k + 1) ≤ 2 ^ 20) :
    (PGROUNDDOWN ((v * PGSIZE + (k + 1) * PGSIZE + (2 ^ 32 - 1)) % 2 ^ 32) + 2 ^ 32 -
      v * PGSIZE) % 2 ^ 32 / PGSIZE = k := by
  simp only [PGROUNDDOWN, PGSIZE]
  omega

/-! ## walkpgdir -/

/-- `walkpgdir` without `alloc` looks the entry up. -/
theorem wp_walkpgdir_false {Q : Option (ℕ × ℕ) → Phys → Prop} :
    wp (walkpgdir d va false) E Q s ↔
      Q ((tab s.mem d (pdx va)).map fun t => (t, ptx va)) s := by
  rw [walkpgdir]
  simp only [wp_bind, wp_getWord, Bool.not_false, if_true, tab, target]
  cases present (word s.mem d (pdx va)) <;> simp

/-- The entry that `walkpgdir` finds. -/
theorem word_of_tab (h : tab s.mem d (v / NPDENTRIES) = some t) :
    word s.mem t (v % NPDENTRIES) = pte s.mem d v := by
  rw [pte, h]

/-- A present entry is in a page table. -/
theorem tab_of_present (h : present (pte s.mem d v) = true) :
    ∃ t, tab s.mem d (v / NPDENTRIES) = some t := by
  rw [pte] at h
  cases ht : tab s.mem d (v / NPDENTRIES) with
  | none =>
    rw [ht] at h
    exact absurd (show present 0 = true from h) (by decide)
  | some t => exact ⟨t, rfl⟩

/-- What mapping pages does to the rest of memory: only free pages, the directory and its tables are
written, and every table stays where it is. -/
structure Built (s s' : Phys) (l l' : List ℕ) (d : ℕ) : Prop where
  sub : ∀ m ∈ l', m ∈ l
  tab : ∀ i t, tab s.mem d i = some t → tab s'.mem d i = some t
  tables : ∀ t ∈ tables s'.mem d, t ∈ tables s.mem d ∨ t ∈ l
  mem : ∀ m, m ∉ l → m ≠ d → m ∉ Vm.tables s.mem d → s'.mem m = s.mem m

theorem Built.refl (s : Phys) (l : List ℕ) (d : ℕ) : Built s s l l d :=
  ⟨fun _ h => h, fun _ _ h => h, fun _ h => .inl h, fun _ _ _ _ => rfl⟩

theorem Built.trans {s'' : Phys} {l' l'' : List ℕ} (h : Built s s' l l' d)
    (h' : Built s' s'' l' l'' d) : Built s s'' l l'' d := by
  refine ⟨fun m hm => h.sub m (h'.sub m hm), fun i t ht => h'.tab i t (h.tab i t ht),
    fun t ht => ?_, fun m hl hd ht => ?_⟩
  · rcases h'.tables t ht with ht' | hl
    · exact h.tables t ht'
    · exact .inr (h.sub t hl)
  · rw [h'.mem m (fun hm => hl (h.sub m hm)) hd fun hm => (h.tables m hm).elim ht hl,
      h.mem m hl hd ht]

/-- A store to an entry is a store to one of the tables. -/
theorem Built.put {l' : List ℕ} {j : ℕ} {w : UInt32} (h : Built s s' l l' d)
    (h' : Own L A s₀ s' l' {d} H) (ht : Vm.tab s'.mem d i = some t) (hj : j < NPDENTRIES) :
    Built s (s'.put t j w) l l' d := by
  have htab := (h'.put_view ht hj w).1
  refine ⟨h.sub, fun i t hi => ?_, fun t' ht' => ?_, fun m hl hd hm => ?_⟩
  · rw [htab, h.tab i t hi]
  · rw [Vm.tables, htab] at ht'
    exact h.tables t' ht'
  · have hne : m ≠ t := by
      rintro rfl
      exact (h.tables m (mem_tables (tab_lt ht) ht)).elim hm hl
    exact (update_of_ne hne _ _).trans (h.mem m hl hd hm)

/-- **`walkpgdir` with `alloc`** finds the entry, and may add an empty page table for it. -/
theorem wp_walkpgdir_true {Q : Option (ℕ × ℕ) → Phys → Prop} (h : Own L A s₀ s l {d} H)
    (hv : v < 2 ^ 20)
    (hnone : ∀ s', s'.mem = s.mem → Own L A s₀ s' l {d} H → Short s₀ l →
      tab s'.mem d (v / NPDENTRIES) = none → Q none s')
    (hsome : ∀ t l' s', Own L A s₀ s' l' {d} H → pte s'.mem d = pte s.mem d →
      tab s'.mem d (v / NPDENTRIES) = some t →
      (∀ k, k ≠ v / NPDENTRIES → tab s'.mem d k = tab s.mem d k) → Built s s' l l' d →
      Q (some (t, v % NPDENTRIES)) s') :
    wp (walkpgdir d (v * PGSIZE) true) E Q s := by
  have hi : v / NPDENTRIES < NPDENTRIES := by
    simp only [NPDENTRIES]
    omega
  rw [walkpgdir, pdx_mul, ptx_mul]
  simp only [wp_bind, wp_getWord, Bool.not_true, Bool.false_eq_true, if_false]
  cases htab : tab s.mem d (v / NPDENTRIES) with
  | some t =>
    obtain ⟨hp, rfl⟩ := target_eq_some.1 htab
    rw [if_pos hp, wp_pure]
    exact hsome _ l s h rfl htab (fun k _ => rfl) (.refl s l d)
  | none =>
    have hp := target_eq_none.1 htab
    rw [if_neg (by rw [hp]; exact Bool.false_ne_true)]
    simp only [wp_bind]
    refine wp_kalloc h (fun s' hmem hown hshort => ?_) fun t l' s' hl hmem hown => ?_
    · rw [wp_pure]
      exact hnone s' hmem hown hshort (by rw [hmem, htab])
    · simp only [wp_bind, wp_memset, wp_putWord, wp_pure]
      have ht : t ∈ t ::ₘ H := mem_cons_self t H
      have hlt := (hown.ram t (hown.mem_of_held ht)).lt
      have hset := hown.setHeld ht (fun _ => 0)
      obtain ⟨htab', hpte'⟩ := hown.setHeld_view ht (mem_singleton_self d) (fun _ => 0)
      obtain ⟨hadd, hpte, htabs⟩ := hset.addTable hi (by dsimp only; rw [htab', hmem, htab])
        (fun j => by dsimp only; rw [word, update_self]; exact Buf.getU32_zero _)
        (target_mkPte (n := t) (by omega) (show PTE_W ||| PTE_U < 4096 by decide))
      have htl : t ∈ l := by
        rw [hl]
        exact List.mem_cons_self
      have hmem' : ∀ m, m ∉ l → update s'.mem t (fun _ => 0) m = s.mem m := by
        intro m hml
        rw [update_of_ne (by rintro rfl; exact hml htl), hmem]
      rw [hmem] at htab'
      simp only [hmem, htab'] at htabs
      refine hsome t l' _ hadd ?_ ?_ (fun k hk => ?_) ⟨fun m hm => ?_, fun i t' hi' => ?_,
        fun t' ht' => ?_,
        fun m hml hmd _ => ?_⟩
      · rw [hpte]
        dsimp only
        rw [hpte', hmem]
      · rw [hmem, htabs, if_pos rfl]
      · rw [hmem, htabs, if_neg hk]
      · rw [hl]
        exact List.mem_cons_of_mem t hm
      · rw [hmem, htabs, if_neg (by rintro rfl; rw [htab] at hi'; cases hi'), hi']
      · obtain ⟨i, hi', hit⟩ := mem_picks.1 ht'
        rw [hmem] at hit
        by_cases hiv : i = v / NPDENTRIES
        · rw [hiv, htabs, if_pos rfl] at hit
          cases hit
          exact .inr htl
        · rw [htabs, if_neg hiv] at hit
          exact .inl (mem_tables hi' hit)
      · exact (update_of_ne hmd _ _).trans (hmem' m hml)

/-! ## mappages -/

/-- One round of `mappages`: it fails for want of a page table, or sets the entry. -/
theorem wp_mapRound {Q : ℤ → Phys → Prop} (h : Own L A s₀ s l {d} H)
    (hv : v < 2 ^ 20) (hno : present (pte s.mem d v) = false)
    (hfail : ∀ s', s'.mem = s.mem → Own L A s₀ s' l {d} H → Short s₀ l → Q (-1) s')
    (hok : ∀ t l' s', Own L A s₀ s' l' {d} H → pte s'.mem d = pte s.mem d →
      tab s'.mem d (v / NPDENTRIES) = some t →
      (∀ k, k ≠ v / NPDENTRIES → tab s'.mem d k = tab s.mem d k) → Built s s' l l' d →
      (k = 0 → Q 0 (s'.put t (v % NPDENTRIES) (mkPte (p * PGSIZE) perm))) ∧
      ∀ k', k = k' + 1 → wp (mapLoop d perm k' ((v * PGSIZE + PGSIZE) % 2 ^ 32)
        ((p * PGSIZE + PGSIZE) % 2 ^ 32)) E Q
        (s'.put t (v % NPDENTRIES) (mkPte (p * PGSIZE) perm))) :
    wp (mapLoop d perm k (v * PGSIZE) (p * PGSIZE)) E Q s := by
  rw [mapLoop.eq_def]
  simp only [wp_bind]
  refine wp_walkpgdir_true h hv (fun s' hmem hown hshort _ => ?_) fun t l' s' hown hpte ht htabs
    hbuilt => ?_
  · rw [wp_pure]
    exact hfail s' hmem hown hshort
  · simp only [wp_bind, wp_getWord]
    rw [word_of_tab ht, hpte, hno]
    simp only [Bool.false_eq_true, if_false, wp_bind, wp_putWord]
    obtain ⟨hlast, hmore⟩ := hok t l' s' hown hpte ht htabs hbuilt
    cases k with
    | zero =>
      rw [wp_pure]
      exact hlast rfl
    | succ k => exact hmore k rfl

/-- A store to an entry above `KERNBASE`. -/
theorem Own.mapKern (h : Own L A s₀ s l {d} H) (ht : tab s.mem d (v / NPDENTRIES) = some t)
    (hv : USERPAGES ≤ v) (w : UInt32) :
    Own L A s₀ (s.put t (v % NPDENTRIES) w) l {d} H ∧
      pte (s.put t (v % NPDENTRIES) w).mem d = update (pte s.mem d) v w ∧
      tab (s.put t (v % NPDENTRIES) w).mem d = tab s.mem d := by
  have hj : v % NPDENTRIES < NPDENTRIES := mod_lt v (by decide)
  obtain ⟨htab, hpte⟩ := h.put_view ht hj w
  rw [vpn_eq] at hpte
  exact ⟨h.remap ht hj fun hlt => by rw [vpn_eq] at hlt; omega, hpte, htab⟩

/-- **`mappages` of one held page** below `KERNBASE`. -/
theorem wp_mappages_user {Q : ℤ → Phys → Prop} (h : Own L A s₀ s l {d} (n ::ₘ H))
    (hv : v < USERPAGES) (hperm : perm < 4096) (hno : present (pte s.mem d v) = false)
    (hfail : ∀ s', s'.mem = s.mem → Own L A s₀ s' l {d} (n ::ₘ H) → Short s₀ l → Q (-1) s')
    (hok : ∀ l' s', Own L A s₀ s' l' {d} H → Built s s' l l' d →
      (∀ i, 512 ≤ i → tab s'.mem d i = tab s.mem d i) →
      pte s'.mem d = update (pte s.mem d) v (mkPte (n * PGSIZE) perm) → Q 0 s') :
    wp (mappages d (v * PGSIZE) PGSIZE (n * PGSIZE) perm) E Q s := by
  have hn : n < 2 ^ 20 := by
    have := (h.ram n (h.mem_of_held (mem_cons_self n H))).lt
    omega
  have ha : PGROUNDDOWN (v * PGSIZE) = v * PGSIZE := by
    rw [PGROUNDDOWN, Nat.mul_div_cancel v (by decide)]
  have hk : (PGROUNDDOWN ((v * PGSIZE + PGSIZE + (2 ^ 32 - 1)) % 2 ^ 32) + 2 ^ 32 - v * PGSIZE)
      % 2 ^ 32 / PGSIZE = 0 := by
    simp only [PGROUNDDOWN, PGSIZE, USERPAGES] at *
    omega
  rw [mappages, ha, hk]
  have hv' : v < 2 ^ 20 := by
    simp only [USERPAGES] at hv
    omega
  have hdir : v / NPDENTRIES < 512 := (div_lt_iff_lt_mul (by decide)).2 hv
  refine wp_mapRound h hv' hno hfail fun t l' s' hown hpte ht htabs hbuilt => ?_
  have hvij := vpn_eq v
  have hj : v % NPDENTRIES < NPDENTRIES := mod_lt v (by decide)
  refine ⟨fun _ => ?_, fun k hk => absurd hk k.succ_ne_zero.symm⟩
  refine hok l' _ (hown.map ht hj (by rwa [hvij]) (by rw [hvij, hpte, hno])
    (target_mkPte hn hperm)) (hbuilt.put hown ht hj) (fun i hi => ?_) ?_
  · rw [(hown.put_view ht hj _).1, htabs i (by omega)]
  · rw [(hown.put_view ht hj _).2, hvij, hpte]

/-- The directory entries that the rest of the pages does not need. -/
theorem next_dirs (h : i < v / NPDENTRIES ∨ (v + (k + 1)) / NPDENTRIES < i) :
    i < (v + 1) / NPDENTRIES ∨ (v + 1 + k) / NPDENTRIES < i := by
  simp only [NPDENTRIES] at *
  omega

theorem dir_ne (h : i < v / NPDENTRIES ∨ (v + (k + 1)) / NPDENTRIES < i) : i ≠ v / NPDENTRIES := by
  simp only [NPDENTRIES] at *
  omega

/-- **The loop of `mappages` above `KERNBASE`**: nothing changes below. -/
theorem wp_mapLoop_kern {Q : ℤ → Phys → Prop} : ∀ {k p v : ℕ} {s : Phys} {l : List ℕ},
    Own L A s₀ s l {d} H → USERPAGES ≤ v → v + k < 2 ^ 20 → p + k < 2 ^ 20 →
    (∀ u, v ≤ u → u ≤ v + k → present (pte s.mem d u) = false) →
    (∀ l' s', Own L A s₀ s' l' {d} H → (∀ u < USERPAGES, pte s'.mem d u = pte s.mem d u) →
      (∀ i, i < v / NPDENTRIES ∨ (v + k) / NPDENTRIES < i → tab s'.mem d i = tab s.mem d i) →
      Short s₀ l' → Q (-1) s') →
    (∀ l' s', Own L A s₀ s' l' {d} H →
      (∀ u, pte s'.mem d u = if v ≤ u ∧ u ≤ v + k then mkPte ((p + (u - v)) * PGSIZE) perm
        else pte s.mem d u) →
      (∀ i, i < v / NPDENTRIES ∨ (v + k) / NPDENTRIES < i → tab s'.mem d i = tab s.mem d i) →
      Q 0 s') →
    wp (mapLoop d perm k (v * PGSIZE) (p * PGSIZE)) E Q s := by
  intro k
  induction k with
  | zero =>
    intro p v s l h hv hv' hp hno hfail hok
    refine wp_mapRound h hv' (hno v (le_refl v) (le_refl v)) (fun s' hmem hown hshort => ?_)
      fun t l' s' hown hpte ht htabs _ => ⟨fun _ => ?_, nofun⟩
    · exact hfail l s' hown (fun u _ => by rw [hmem]) (fun i _ => by rw [hmem]) hshort
    · obtain ⟨hown', hpte', htab'⟩ := hown.mapKern ht hv (mkPte (p * PGSIZE) perm)
      refine hok l' _ hown' (fun u => ?_)
        fun i hi => by rw [htab', htabs i (by rw [add_zero] at hi; omega)]
      rw [hpte', hpte]
      by_cases hu : u = v
      · rw [hu, update_self, if_pos (by omega), Nat.sub_self, Nat.add_zero]
      · rw [update_of_ne hu, if_neg (by omega)]
  | succ k ih =>
    intro p v s l h hv hv' hp hno hfail hok
    refine wp_mapRound h (by omega) (hno v (le_refl v) (by omega)) (fun s' hmem hown hshort => ?_)
      fun t l' s' hown hpte ht htabs _ => ⟨fun hk => (by cases hk), fun k' hk' => ?_⟩
    · exact hfail l s' hown (fun u _ => by rw [hmem]) (fun i _ => by rw [hmem]) hshort
    · cases hk'
      obtain ⟨hown', hpte', htab'⟩ := hown.mapKern ht hv (mkPte (p * PGSIZE) perm)
      rw [succ_page (by omega), succ_page (by omega)]
      refine ih hown' (by omega) (by omega) (by omega) (fun u hu hu' => ?_)
        (fun l'' s'' hown'' hpte'' htab'' hshort => ?_) fun l'' s'' hown'' hpte'' htab'' => ?_
      · rw [hpte', update_of_ne (by omega), hpte]
        exact hno u (by omega) (by omega)
      · refine hfail l'' s'' hown'' (fun u hu => ?_) (fun i hi => ?_) hshort
        · rw [hpte'' u hu, hpte', update_of_ne (by omega), hpte]
        · rw [htab'' i (next_dirs hi), htab', htabs i (dir_ne hi)]
      · refine hok l'' s'' hown'' (fun u => ?_) fun i hi => ?_
        · rw [hpte'', hpte', hpte]
          by_cases hu : u = v
          · rw [hu, update_self, if_neg (by omega), if_pos (by omega), Nat.sub_self, add_zero]
          · rw [update_of_ne hu]
            by_cases hin : v ≤ u ∧ u ≤ v + (k + 1)
            · rw [if_pos (by omega), if_pos hin, show p + 1 + (u - (v + 1)) = p + (u - v) by omega]
            · rw [if_neg (by omega), if_neg hin]
        · rw [htab'' i (next_dirs hi), htab', htabs i (dir_ne hi)]

/-! ## deallocuvm and freevm -/

/-- What unmapping makes of an entry. -/
def cleared (w : UInt32) : UInt32 := if present w then 0 else w

theorem present_cleared (w : UInt32) : present (cleared w) = false := by
  rw [cleared]
  split_ifs with h
  · rfl
  · simpa using h

/-- A mapped page is one of the space. -/
theorem Own.target_mem (h : Own L A s₀ s l {d} H) (hv : v < USERPAGES)
    (hn : target (pte s.mem d v) = some n) : n ∈ pages s.mem d ∧ n ≠ d ∧ n ∉ tables s.mem d := by
  have hu : n ∈ users s.mem d := mem_picks.2 ⟨v, hv, hn⟩
  have hnodup := h.nodup_pages
  rw [pages, nodup_cons, nodup_add, disjoint_left] at hnodup
  refine ⟨mem_cons_of_mem (mem_add.2 (.inr hu)), ?_, fun ht => hnodup.2.2.2 ht hu⟩
  rintro rfl
  exact hnodup.1 (mem_add.2 (.inr hu))

/-- What `deallocuvm` does to the space `d`: the pages with addresses from `lo` up to `hi` are
unmapped, and only they and the tables are written. -/
structure Unmapped (s s' : Phys) (d lo hi : ℕ) : Prop where
  pte : ∀ u, pte s'.mem d u = if lo ≤ u * PGSIZE ∧ u * PGSIZE < hi then cleared (pte s.mem d u)
    else pte s.mem d u
  tab : tab s'.mem d = tab s.mem d
  mem : ∀ m, m ≠ d → m ∉ tables s.mem d → (∀ u < USERPAGES, lo ≤ u * PGSIZE → u * PGSIZE < hi →
    target (Vm.pte s.mem d u) ≠ some m) → s'.mem m = s.mem m

/-- The page is freed and its entry cleared. -/
theorem Own.release (h : Own L A s₀ s l {d} H) (hv : v < USERPAGES)
    (ht : tab s.mem d (v / NPDENTRIES) = some t) (hn : target (pte s.mem d v) = some n) :
    Own L A s₀ ((s.freed n).put t (v % NPDENTRIES) 0) (n :: l) {d} H ∧
      pte ((s.freed n).put t (v % NPDENTRIES) 0).mem d = update (pte s.mem d) v 0 ∧
      tab ((s.freed n).put t (v % NPDENTRIES) 0).mem d = tab s.mem d := by
  have hj : v % NPDENTRIES < NPDENTRIES := mod_lt v (by decide)
  have hvij := vpn_eq v
  have htn : t ≠ n := by
    rintro rfl
    exact (h.target_mem hv hn).2.2 (mem_tables (tab_lt ht) ht)
  have hun := h.unmap ht hj (by rwa [hvij]) (by rwa [hvij])
  obtain ⟨htab, hview⟩ := h.put_view ht hj 0
  rw [hvij] at hview
  rw [Phys.freed_put htn]
  obtain ⟨htab', hview'⟩ := hun.setHeld_view (mem_cons_self n H)
    (mem_singleton_self d) (Buf.putU32 (fun _ => 1) 0 s.freelist)
  exact ⟨hun.freed, hview'.trans hview, htab'.trans htab⟩

/-- The first address behind a page table. -/
theorem skip_dir (v : ℕ) :
    (v / NPDENTRIES + 1) * 2 ^ 22 = (v / NPDENTRIES + 1) * NPDENTRIES * PGSIZE := by
  simp only [NPDENTRIES, PGSIZE]
  omega

theorem skip_dir_lt (h : v * PGSIZE < oldsz) :
    oldsz - (v / NPDENTRIES + 1) * NPDENTRIES * PGSIZE < oldsz - v * PGSIZE := by
  simp only [NPDENTRIES, PGSIZE] at *
  omega

theorem succ_page_lt (h : v * PGSIZE < oldsz) : oldsz - (v + 1) * PGSIZE < oldsz - v * PGSIZE := by
  simp only [PGSIZE] at *
  omega

/-- A page below `KERNBASE`. -/
theorem user_of_lt {sz : ℕ} (hsz : sz ≤ KERNBASE) (h : v * PGSIZE < sz) : v < USERPAGES := by
  simp only [PGSIZE, KERNBASE, USERPAGES] at *
  omega

theorem Layout.Ram.ne_zero (h : L.Ram n) : n ≠ 0 := by
  have h1 := h.1
  have h2 := L.data_gt
  have h3 := L.data_le
  simp only [Layout.first, PGROUNDUP, PGSIZE, EXTMEM] at *
  omega

/-- With no addresses, nothing happens. -/
theorem Unmapped.nil (s : Phys) (d : ℕ) {lo : ℕ} (h : hi ≤ lo) : Unmapped s s d lo hi :=
  ⟨fun u => by rw [if_neg fun hc => absurd (hc.1.trans_lt hc.2) (not_lt.2 h)], rfl,
    fun _ _ _ _ => rfl⟩

/-- Where there is no page table, there is nothing to unmap. -/
theorem Unmapped.skip (h : Unmapped s s' d ((v / NPDENTRIES + 1) * NPDENTRIES * PGSIZE) hi)
    (ht : Vm.tab s.mem d (v / NPDENTRIES) = none) : Unmapped s s' d (v * PGSIZE) hi := by
  have hle : ∀ u w, w * PGSIZE ≤ u * PGSIZE ↔ w ≤ u := fun u w =>
    Nat.mul_le_mul_right_iff (by decide)
  have hv : v < (v / NPDENTRIES + 1) * NPDENTRIES := by
    simp only [NPDENTRIES]
    omega
  refine ⟨fun u => ?_, h.tab, fun m hd hm hno => h.mem m hd hm fun u hu h1 h2 => hno u hu ?_ h2⟩
  · rw [h.pte]
    simp only [hle]
    by_cases hu : v ≤ u ∧ u < (v / NPDENTRIES + 1) * NPDENTRIES
    · have hdiv : u / NPDENTRIES = v / NPDENTRIES := by
        simp only [NPDENTRIES] at *
        omega
      have hzero : Vm.pte s.mem d u = 0 := by rw [Vm.pte, hdiv, ht]
      rw [if_neg fun hc => absurd hc.1 (not_le.2 hu.2), hzero]
      split_ifs <;> rfl
    · congr 1
      simp only [NPDENTRIES, eq_iff_iff] at *
      omega
  · exact (mul_le_mul_right _ hv.le).trans h1

/-- The pages from `v` on are `v` and those behind it. -/
theorem Unmapped.cons {s'' : Phys} (h : Unmapped s' s'' d ((v + 1) * PGSIZE) hi)
    (hlt : v * PGSIZE < hi) (hpte : Vm.pte s'.mem d = update (Vm.pte s.mem d) v
      (cleared (Vm.pte s.mem d v))) (htab : Vm.tab s'.mem d = Vm.tab s.mem d)
    (hmem : ∀ m, m ≠ d → m ∉ tables s.mem d → target (Vm.pte s.mem d v) ≠ some m →
      s'.mem m = s.mem m)
    (hv : v < USERPAGES) : Unmapped s s'' d (v * PGSIZE) hi := by
  have hle : ∀ u, v * PGSIZE ≤ u * PGSIZE ↔ v ≤ u := fun u =>
    Nat.mul_le_mul_right_iff (by decide)
  have hle' : ∀ u, (v + 1) * PGSIZE ≤ u * PGSIZE ↔ v + 1 ≤ u := fun u =>
    Nat.mul_le_mul_right_iff (by decide)
  refine ⟨fun u => ?_, h.tab.trans htab, fun m hd ht hm => ?_⟩
  · rw [h.pte, hpte]
    simp only [hle, hle']
    by_cases hu : u = v
    · rw [hu, update_self, if_neg (by omega), if_pos ⟨le_refl v, hlt⟩]
    · rw [update_of_ne hu]
      congr 1
      simp only [eq_iff_iff]
      omega
  · rw [h.mem m hd (by rwa [tables, htab]) fun u hu h1 h2 => ?_, hmem m hd ht ?_]
    · exact hm v hv (le_refl _) hlt
    · rw [hpte, update_of_ne (by rw [hle'] at h1; omega)]
      exact hm u hu ((mul_le_mul_right _ (le_succ v)).trans h1) h2

/-- **The loop of `deallocuvm`** unmaps what is mapped from the page `v` up to `oldsz`. -/
theorem wp_deallocLoop (hold : oldsz ≤ KERNBASE) :
    ∀ (m : ℕ) {v : ℕ} {s : Phys} {l : List ℕ}, oldsz - v * PGSIZE ≤ m → Own L A s₀ s l {d} H →
    (∀ l' s', Own L A s₀ s' l' {d} H → Unmapped s s' d (v * PGSIZE) oldsz → Q () s') →
    wp (deallocLoop L d oldsz (v * PGSIZE)) E Q s := by
  intro m
  induction m using Nat.strongRecOn with
  | ind m ih =>
    intro v s l hm h hQ
    rw [deallocLoop]
    by_cases hlt : v * PGSIZE < oldsz
    · have hv : v < USERPAGES := user_of_lt hold hlt
      have hnext := lt_of_lt_of_le (succ_page_lt hlt) hm
      rw [if_pos hlt]
      simp only [wp_bind, wp_walkpgdir_false, pdx_mul, ptx_mul]
      cases ht : tab s.mem d (v / NPDENTRIES) with
      | none =>
        simp only [Option.map_none]
        rw [skip_dir]
        refine ih _ (lt_of_lt_of_le (skip_dir_lt hlt) hm) (le_refl _) h fun l' s' hown hun =>
          hQ l' s' hown (hun.skip ht)
      | some t =>
        simp only [Option.map_some, wp_bind, wp_getWord]
        rw [word_of_tab ht]
        cases hp : present (pte s.mem d v) with
        | true =>
          have hn : target (pte s.mem d v) = some (ppn (pte s.mem d v)) :=
            target_eq_some.2 ⟨hp, rfl⟩
          have hcl : cleared (pte s.mem d v) = 0 := by rw [cleared, if_pos hp]
          set n := ppn (pte s.mem d v)
          have hram := h.ram n (h.mem_of_pages (mem_singleton_self d) (h.target_mem hv hn).1)
          obtain ⟨hown, hview, htab⟩ := h.release hv ht hn
          rw [if_pos rfl, if_neg hram.ne_zero, wp_bind, wp_kfree_eq hram, wp_bind, wp_putWord,
            ← succ_mul]
          refine ih _ hnext (le_refl _) hown fun l' s' hown' hun =>
            hQ l' s' hown' (hun.cons hlt (by rw [hview, hcl]) htab (fun m _ hmt hmn => ?_) hv)
          have hne : m ≠ t := by
            rintro rfl
            exact hmt (mem_tables (tab_lt ht) ht)
          have hne' : m ≠ n := by
            rintro rfl
            exact hmn hn
          exact (update_of_ne hne _ _).trans (Phys.freed_mem_of_ne hne')
        | false =>
          have hcl : cleared (pte s.mem d v) = pte s.mem d v := by
            rw [cleared, if_neg (by simp [hp])]
          simp only [Bool.false_eq_true, if_false]
          rw [← succ_mul]
          exact ih _ hnext (le_refl _) h fun l' s' hown' hun => hQ l' s' hown'
            (hun.cons hlt (by rw [hcl, update_eq_self]) rfl (fun _ _ _ _ => rfl) hv)
    · rw [if_neg hlt, wp_pure]
      exact hQ l s h (.nil s d (Nat.le_of_not_lt hlt))

theorem roundUp_le_iff (sz u : ℕ) : (sz + (PGSIZE - 1)) / PGSIZE ≤ u ↔ sz ≤ u * PGSIZE := by
  simp only [PGSIZE]
  omega

theorem roundUp_lt (sz : ℕ) : (sz + (PGSIZE - 1)) / PGSIZE * PGSIZE < sz + PGSIZE := by
  have := div_mul_le_self (sz + (PGSIZE - 1)) PGSIZE
  have : 0 < PGSIZE := by decide
  omega

/-- **`deallocuvm`** unmaps the pages from `newsz` up to `oldsz`. -/
theorem wp_deallocuvm {Q : ℕ → Phys → Prop} {newsz : ℕ} (hold : oldsz ≤ KERNBASE)
    (h : Own L A s₀ s l {d} H)
    (hQ : ∀ l' s', Own L A s₀ s' l' {d} H → Unmapped s s' d newsz oldsz →
      Q (if newsz ≥ oldsz then oldsz else newsz) s') :
    wp (deallocuvm L d oldsz newsz) E Q s := by
  rw [deallocuvm]
  split_ifs with hge
  · rw [wp_pure]
    rw [if_pos hge] at hQ
    exact hQ l s h (.nil s d hge)
  · rw [if_neg hge] at hQ
    rw [wp_bind, PGROUNDUP]
    refine wp_deallocLoop hold _ (le_refl _) h fun l' s' hown hun => ?_
    rw [wp_pure]
    have hiff : ∀ u, (newsz + (PGSIZE - 1)) / PGSIZE * PGSIZE ≤ u * PGSIZE ↔ newsz ≤ u * PGSIZE :=
      fun u => (Nat.mul_le_mul_right_iff (by decide)).trans (roundUp_le_iff newsz u)
    refine hQ l' s' hown ⟨fun u => ?_, hun.tab, fun m hd ht hm => hun.mem m hd ht fun u hu h1 => ?_⟩
    · rw [hun.pte]
      simp only [hiff]
    · exact hm u hu ((hiff u).1 h1)

/-- The directory and the page tables of a space without user pages. -/
theorem Own.bare (h : Own L A s₀ s l {d} H)
    (hno : ∀ u < USERPAGES, present (pte s.mem d u) = false) :
    Own L A s₀ s l 0 (tables s.mem d + d ::ₘ H) := by
  have husers : users s.mem d = 0 := picks_eq_zero fun u hu => target_eq_none.2 (hno u hu)
  refine ⟨h.nodup, h.ram, h.free, ?_, h.keeps, h.denied⟩
  rw [← h.sum_singleton, pages, husers]
  simp only [zero_bind, ← singleton_add]
  abel

/-- The loop of `freevm` over the entries of the directory. -/
theorem wp_freeTables (h : Own L A s₀ s l 0 (tables s.mem d + d ::ₘ H))
    (hQ : ∀ l' s', Own L A s₀ s' l' 0 (d ::ₘ H) → Q () s') :
    wp ((List.range NPDENTRIES).forM fun i => do
      let w ← getWord d i
      if present w then kfree L (ppn w) else pure ()) E Q s := by
  refine wp_forM (fun is s' => s'.mem d = s.mem d ∧
    ∃ l', Own L A s₀ s' l' 0 (((is.filterMap (tab s.mem d) : List ℕ) : Multiset ℕ) + d ::ₘ H))
    (fun i is s' hI => ?_) (fun s' hI => ?_) ⟨rfl, l, ?_⟩
  · obtain ⟨hd, l', hown⟩ := hI
    have hword : word s'.mem d i = word s.mem d i := by rw [word, hd, word]
    simp only [wp_bind, wp_getWord]
    rw [hword]
    cases htab : tab s.mem d i with
    | none =>
      rw [if_neg (by rw [target_eq_none.1 htab]; exact Bool.false_ne_true), wp_pure]
      rw [List.filterMap_cons_none htab] at hown
      exact ⟨hd, l', hown⟩
    | some t =>
      obtain ⟨hp, rfl⟩ := target_eq_some.1 htab
      rw [List.filterMap_cons_some htab, ← cons_coe, cons_add] at hown
      have hne : ppn (word s.mem d i) ≠ d := by
        intro heq
        have hnodup := hown.nodup
        rw [← hown.sum, nodup_add] at hnodup
        refine (nodup_cons.1 hnodup.2.1).1 (mem_add.2 (.inr ?_))
        rw [heq]
        exact mem_cons_self d H
      rw [if_pos hp]
      refine wp_kfree hown fun hown' => ⟨?_, _, hown'⟩
      rw [Phys.freed_mem_of_ne hne.symm, hd]
  · obtain ⟨-, l', hown⟩ := hI
    rw [List.filterMap_nil, coe_nil, zero_add] at hown
    exact hQ l' s' hown
  · rwa [← picks_eq]

/-- **`freevm`** frees the whole space. -/
theorem wp_freevm (h : Own L A s₀ s l {d} H)
    (hQ : ∀ l' s', Own L A s₀ s' l' 0 H → Q () s') : wp (freevm L d) E Q s := by
  rw [freevm]
  simp only [wp_bind]
  refine wp_deallocuvm (le_refl _) h fun l' s' hown hun => ?_
  have hno : ∀ u < USERPAGES, present (pte s'.mem d u) = false := by
    intro u hu
    have hlt : 0 ≤ u * PGSIZE ∧ u * PGSIZE < KERNBASE := by
      simp only [USERPAGES, PGSIZE, KERNBASE] at *
      omega
    rw [hun.pte, if_pos hlt, present_cleared]
  refine wp_freeTables (hown.bare hno) fun l'' s'' hown'' => ?_
  exact wp_kfree hown'' fun hend => hQ _ _ hend

/-! ## setupkvm -/

/-- A zeroed page is the directory of an empty space. -/
theorem Own.newDir (h : Own L A s₀ s l 0 (d ::ₘ H)) (hz : ∀ i, word s.mem d i = 0) :
    Own L A s₀ s l {d} H ∧ (∀ u, pte s.mem d u = 0) ∧ ∀ i, tab s.mem d i = none := by
  have htab : ∀ i, tab s.mem d i = none := fun i => by rw [tab, hz, target_zero]
  have hpte : ∀ u, pte s.mem d u = 0 := fun u => by rw [pte, htab]
  have htables : tables s.mem d = 0 := picks_eq_zero fun i _ => htab i
  have husers : users s.mem d = 0 := picks_eq_zero fun u _ => by rw [hpte, target_zero]
  refine ⟨⟨h.nodup, h.ram, h.free, ?_, h.keeps, h.denied⟩, hpte, htab⟩
  rw [← h.sum, singleton_bind, pages, htables, husers]
  simp only [zero_bind, ← singleton_add]
  abel

/-- **`mappages` of `c` pages above `KERNBASE`.** -/
theorem wp_mappages_kern {Q : ℤ → Phys → Prop} {c : ℕ} (h : Own L A s₀ s l {d} H)
    (hv : USERPAGES ≤ v) (hc : 0 < c) (hvc : v + c ≤ 2 ^ 20) (hpc : p + c ≤ 2 ^ 20)
    (hno : ∀ u, v ≤ u → u < v + c → present (pte s.mem d u) = false)
    (hfail : ∀ l' s', Own L A s₀ s' l' {d} H →
      (∀ u < USERPAGES, pte s'.mem d u = pte s.mem d u) →
      (∀ i, i < v / NPDENTRIES ∨ (v + c - 1) / NPDENTRIES < i → tab s'.mem d i = tab s.mem d i) →
      Short s₀ l' → Q (-1) s')
    (hok : ∀ l' s', Own L A s₀ s' l' {d} H →
      (∀ u, pte s'.mem d u = if v ≤ u ∧ u < v + c then mkPte ((p + (u - v)) * PGSIZE) perm
        else pte s.mem d u) →
      (∀ i, i < v / NPDENTRIES ∨ (v + c - 1) / NPDENTRIES < i → tab s'.mem d i = tab s.mem d i) →
      Q 0 s') :
    wp (mappages d (v * PGSIZE) (c * PGSIZE) (p * PGSIZE) perm) E Q s := by
  obtain ⟨k, rfl⟩ : ∃ k, c = k + 1 := ⟨c - 1, by omega⟩
  have ha : PGROUNDDOWN (v * PGSIZE) = v * PGSIZE := by
    rw [PGROUNDDOWN, Nat.mul_div_cancel v (by decide)]
  have hk : (PGROUNDDOWN ((v * PGSIZE + (k + 1) * PGSIZE + (2 ^ 32 - 1)) % 2 ^ 32) + 2 ^ 32 -
      v * PGSIZE) % 2 ^ 32 / PGSIZE = k := rounds_eq hvc
  rw [mappages, ha, hk]
  refine wp_mapLoop_kern h hv (by omega) (by omega) (fun u hu hu' => hno u hu (by omega)) hfail
    fun l' s' hown hpte htab => hok l' s' hown (fun u => ?_) htab
  simp only [hpte, Nat.lt_succ_iff, ← Nat.add_assoc]

/-- The entries of the directory that the kernel's mappings do not use: those of user memory, and
those between physical memory and the devices. -/
def Bare (i : ℕ) : Prop := i < 512 ∨ (568 ≤ i ∧ i < 1016)

/-- The first virtual page behind the kernel's map of physical memory. -/
def RAMEND : ℕ := (KERNBASE + PHYSTOP) / PGSIZE

/-- A space that `setupkvm` is building: nothing below `KERNBASE`, no user bit above, and nothing
yet from the page `lim` on. -/
structure Setup (s : Phys) (d lim : ℕ) : Prop where
  users : ∀ u < USERPAGES, pte s.mem d u = 0
  tabs : ∀ i, Bare i → tab s.mem d i = none
  kern : ∀ u, USERPAGES ≤ u → present (pte s.mem d u) = true →
    user (pte s.mem d u) = false ∧ u < lim
  ram : ∀ u, USERPAGES ≤ u → u < lim → u < RAMEND → present (pte s.mem d u) = true

/-- Why a kernel mapping cannot be built: `kalloc` found nothing, with at most a page directory and
512 page tables taken. -/
def Scarce (s₀ : Phys) (A H : Multiset ℕ) : Prop :=
  (∃ k, s₀.denied k = true) ∨ A.card ≤ 513 + H.card

theorem scarce_of_short (h : Own L A s₀ s l {d} H) (hpte : ∀ u < USERPAGES, pte s.mem d u = 0)
    (htab : ∀ i < 512, tab s.mem d i = none) (hshort : Short s₀ l) : Scarce s₀ A H := by
  refine hshort.imp id fun hl => ?_
  have husers : users s.mem d = 0 := picks_eq_zero fun u hu => by rw [hpte u hu, target_zero]
  have hcard : (tables s.mem d).card ≤ NPDENTRIES - 512 := card_picks_le (by decide) htab
  rw [← h.sum_singleton, hl, pages, husers, add_zero, coe_nil, zero_add, card_add, card_cons]
  simp only [NPDENTRIES] at hcard
  omega

/-- One entry of `kmap`: `c` pages from `v` on. -/
theorem wp_kmapLoop_cons {Q : Option ℕ → Phys → Prop} {k : Kmap} {ks : List Kmap}
    {c lim : ℕ} (h : Own L A s₀ s l {d} H) (hs : Setup s d lim) (hlim : lim ≤ v)
    (hv : USERPAGES ≤ v) (hvirt : k.virt = v * PGSIZE) (hstart : k.phys_start = p * PGSIZE)
    (hsize : (k.phys_end + 2 ^ 32 - k.phys_start) % 2 ^ 32 = c * PGSIZE)
    (hperm : k.perm < 4096) (huser : k.perm.testBit 2 = false)
    (hc : 0 < c) (hvc : v + c ≤ 2 ^ 20) (hpc : p + c ≤ 2 ^ 20)
    (hbare : ∀ i, Bare i → i < v / NPDENTRIES ∨ (v + c - 1) / NPDENTRIES < i)
    (hgap : lim = v ∨ RAMEND ≤ lim)
    (hfail : ∀ l' s', Own L A s₀ s' l' 0 H → Scarce s₀ A H → Q none s')
    (hok : ∀ l' s', Own L A s₀ s' l' {d} H → Setup s' d (v + c) →
      (∀ u, v ≤ u → u < v + c → present (pte s'.mem d u) = true) →
      wp (kmapLoop L d ks) E Q s') :
    wp (kmapLoop L d (k :: ks)) E Q s := by
  rw [kmapLoop, hvirt, hsize, hstart, wp_bind]
  refine wp_mappages_kern h hv hc hvc hpc (fun u hu _ => ?_) (fun l' s' hown hpte htab hshort => ?_)
    fun l' s' hown hpte htab => ?_
  · cases hp : present (pte s.mem d u) with
    | false => rfl
    | true =>
      have := (hs.kern u (by omega) hp).2
      omega
  · rw [if_pos (by decide), wp_bind]
    refine wp_freevm hown fun l'' s'' hown'' => ?_
    rw [wp_pure]
    refine hfail l'' s'' hown'' (scarce_of_short hown (fun u hu => ?_) (fun i hi => ?_) hshort)
    · rw [hpte u hu, hs.users u hu]
    · rw [htab i (hbare i (.inl hi)), hs.tabs i (.inl hi)]
  · rw [if_neg (by decide)]
    refine hok l' s' hown ⟨fun u hu => ?_, fun i hi => ?_, fun u hu hp => ?_, fun u hu hu' hr => ?_⟩
      fun u hu hu' => ?_
    · rw [hpte, if_neg (by omega), hs.users u hu]
    · rw [htab i (hbare i hi), hs.tabs i hi]
    · rw [hpte] at hp ⊢
      split_ifs at hp ⊢ with hin
      · exact ⟨(user_mkPte (by omega) hperm).trans huser, hin.2⟩
      · obtain ⟨h1, h2⟩ := hs.kern u hu hp
        exact ⟨h1, by omega⟩
    · rw [hpte]
      split_ifs with hin
      · exact present_mkPte (by omega) hperm
      · exact hs.ram u hu (by omega) hr
    · rw [hpte, if_pos ⟨hu, hu'⟩, present_mkPte (by omega) hperm]

/-- The kernel's part of a space: no entry above `KERNBASE` has the user bit, and the devices are
mapped. -/
structure Kern (mem : ℕ → Page) (d : ℕ) : Prop where
  user : ∀ u, USERPAGES ≤ u → present (pte mem d u) = true → user (pte mem d u) = false
  dev : ∀ u, DEVSPACE / PGSIZE ≤ u → u < 2 ^ 20 → present (pte mem d u) = true

/-- **`setupkvm`** makes a space with the kernel's mappings alone, or takes no page. -/
theorem wp_setupkvm {Q : Option ℕ → Phys → Prop} (h : Own L A s₀ s l 0 H)
    (hnone : ∀ l' s', Own L A s₀ s' l' 0 H → Scarce s₀ A H → Q none s')
    (hsome : ∀ d l' s', Own L A s₀ s' l' {d} H → Kern s'.mem d →
      (∀ u < USERPAGES, pte s'.mem d u = 0) → (∀ i, Bare i → tab s'.mem d i = none) →
      (∀ u, USERPAGES ≤ u → u < RAMEND → present (pte s'.mem d u) = true) →
      Q (some d) s') : wp (setupkvm L) E Q s := by
  have hdata := L.data_gt
  have hend := L.end_le
  have hle := L.data_le
  rw [setupkvm, wp_bind]
  refine wp_kalloc h (fun s' _ hown hshort => ?_) fun d l' s' hl hmem hown => ?_
  · rw [wp_pure]
    refine hnone l s' hown (hshort.imp id fun hl => ?_)
    rw [← hown.sum, hl]
    simp
  · have hzero := hown.setHeld (mem_cons_self d H) (fun _ => 0)
    obtain ⟨hown', hpte, htab⟩ := hzero.newDir fun i => by
      dsimp only
      rw [word, update_self]
      exact Buf.getU32_zero _
    rw [wp_bind, wp_memset, if_neg (by decide), kmap]
    have hset : Setup { s' with mem := update s'.mem d fun _ => 0 } d USERPAGES :=
      ⟨fun u _ => hpte u, fun i _ => htab i, fun u _ hp => by
        rw [hpte u] at hp
        exact absurd hp (by decide), fun u hu hlt _ => absurd hu (not_le.2 hlt)⟩
    simp only [EXTMEM, PGSIZE] at hdata hle
    refine wp_kmapLoop_cons (v := 0x80000) (p := 0) (c := 0x100) hown' hset (le_refl _) (le_refl _)
      rfl rfl rfl (by decide) rfl (by decide) (by decide) (by decide)
      (fun i hi => by simp only [Bare, NPDENTRIES] at *; omega) (.inl rfl) hnone
      fun l1 s1 hown1 hset1 _ => ?_
    refine wp_kmapLoop_cons (v := 0x80100) (p := 0x100) (c := L.data - 0x100) hown1 hset1
      (le_refl _) (by decide) rfl rfl ?_ (show 0 < 4096 by decide)
      (zero_testBit 2) (by omega) (by omega) (by omega)
      (fun i hi => by simp only [Bare, NPDENTRIES] at *; omega) (.inl rfl) hnone
      fun l2 s2 hown2 hset2 _ => ?_
    · simp only [EXTMEM, PGSIZE]
      omega
    refine wp_kmapLoop_cons (v := 0x80000 + L.data) (p := L.data) (c := 0xE000 - L.data) hown2 hset2
      (by omega) (by simp only [USERPAGES]; omega) ?_ rfl ?_
      (show PTE_W < 4096 by decide) (show PTE_W.testBit 2 = false by decide) (by omega) (by omega)
      (by omega) (fun i hi => by simp only [Bare, NPDENTRIES] at *; omega) (.inl (by omega)) hnone
      fun l3 s3 hown3 hset3 _ => ?_
    · simp only [KERNBASE, PGSIZE]
      omega
    · simp only [PHYSTOP, PGSIZE]
      omega
    refine wp_kmapLoop_cons (v := 0xFE000) (p := 0xFE000) (c := 0x2000) hown3 hset3 (by omega)
      (by decide) rfl rfl rfl (by decide) rfl (by decide) (by decide) (by decide)
      (fun i hi => by simp only [Bare, NPDENTRIES] at *; omega)
      (.inr (by simp only [RAMEND, KERNBASE, PHYSTOP, PGSIZE]; omega)) hnone
      fun l4 s4 hown4 hset4 hdev => ?_
    rw [kmapLoop, wp_pure]
    exact hsome d l4 s4 hown4 ⟨fun u hu hp => (hset4.kern u hu hp).1, fun u hu hu' => hdev u hu hu'⟩
      hset4.users hset4.tabs fun u hu hr => hset4.ram u hu (hr.trans_le (by decide)) hr

end Xv6.Vm
