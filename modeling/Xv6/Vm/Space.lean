/-
# Address spaces in memory

A page directory and its page tables are pages of memory, and their entries words of those pages.
`pte mem d v` is the entry for the virtual page `v` in the space of the directory `d`; it is 0 where
there is no table. The space consists of the directory, the page tables and the pages that are
mapped below `KERNBASE` (`pages`).

Ownership is an equation between multisets of page numbers. `Own L A s₀ s l D H` says that the pages
`A` are, each once, the free list `l`, the pages of the spaces `D`, or held by someone else (`H`),
and that memory outside `A` is as it was in `s₀`. Each step moves pages between the three parts and
leaves `A` alone: `A` is what a call may touch.

The lemmas here say what one store does: to a page someone holds (`Own.setHeld`), to an entry of a
page table (`Own.map`, `Own.unmap`, `Own.remap`), to an entry of a directory (`Own.addTable`); and
what `kalloc` and `kfree` do (`wp_kalloc`, `wp_kfree`).
-/
import Mathlib.Data.Multiset.Bind
import Mathlib.Tactic.Abel
import Xv6.Lib.Select
import Xv6.Vm.Phys

namespace Xv6.Vm

open Function Lib Multiset Nat

/-! ## Entries -/

/-- `PTE_P`: present. -/
abbrev PTE_P : ℕ := 0x001

/-- `PTE_W`: writeable. -/
abbrev PTE_W : ℕ := 0x002

/-- `PTE_U`: user. -/
abbrev PTE_U : ℕ := 0x004

/-- `w & PTE_P`. -/
def present (w : UInt32) : Bool := w &&& 1 != 0

/-- `w & PTE_U`. -/
def user (w : UInt32) : Bool := w &&& 4 != 0

/-- The page at `PTE_ADDR(w)`. -/
def ppn (w : UInt32) : ℕ := (w &&& ~~~0xFFF).toNat / PGSIZE

/-- `PTE_FLAGS(w)`. -/
def flags (w : UInt32) : ℕ := (w &&& 0xFFF).toNat

/-- `pa | perm | PTE_P`. -/
def mkPte (pa perm : ℕ) : UInt32 := UInt32.ofNat (pa ||| perm ||| PTE_P)

theorem bne_zero_eq (w : UInt32) : (w != 0) = decide (w.toNat ≠ 0) := by
  rw [bne, ← Bool.not_not (decide _)]
  congr 1
  rw [Bool.eq_iff_iff]
  simp [← UInt32.toNat_inj]

theorem present_eq (w : UInt32) : present w = w.toNat.testBit 0 := by
  rw [present, testBit_zero, bne_zero_eq, UInt32.toNat_and]
  simp [and_one_is_mod]

theorem user_eq (w : UInt32) : user w = w.toNat.testBit 2 := by
  rw [user, bne_zero_eq, UInt32.toNat_and, show (4 : UInt32).toNat = 2 ^ 2 from rfl, and_two_pow]
  cases w.toNat.testBit 2 <;> rfl

theorem ppn_eq (w : UInt32) : ppn w = w.toNat / PGSIZE := by
  have hmask : (~~~(0xFFF : UInt32)).toNat = 0xFFFFF * 2 ^ 12 := by decide
  have hlt := w.toNat_lt
  rw [ppn, UInt32.toNat_and, hmask, show PGSIZE = 2 ^ 12 from rfl, ← shiftRight_eq_div_pow,
    shiftRight_and_distrib, shiftRight_eq_div_pow, shiftRight_eq_div_pow,
    Nat.mul_div_cancel _ (by decide), show 0xFFFFF = 2 ^ 20 - 1 from rfl,
    and_two_pow_sub_one_eq_mod]
  exact mod_eq_of_lt (by omega)

theorem flags_lt (w : UInt32) : flags w < 4096 := by
  rw [flags, UInt32.toNat_and]
  exact lt_of_le_of_lt and_le_right (by decide)

variable {n perm : ℕ}

variable (hn : n < 2 ^ 20) (hp : perm < 4096)

include hn hp

theorem toNat_mkPte : (mkPte (n * PGSIZE) perm).toNat = 2 ^ 12 * n + (perm ||| PTE_P) := by
  have hlow : perm ||| PTE_P < 2 ^ 12 := or_lt_two_pow hp (by decide)
  rw [mkPte, UInt32.toNat_ofNat', Nat.or_assoc, Nat.mul_comm n, show PGSIZE = 2 ^ 12 from rfl,
    ← two_pow_add_eq_or_of_lt hlow]
  exact mod_eq_of_lt (by omega)

theorem present_mkPte : present (mkPte (n * PGSIZE) perm) = true := by
  have hlow : perm ||| PTE_P < 2 ^ 12 := or_lt_two_pow hp (by decide)
  rw [present_eq, toNat_mkPte hn hp, testBit_two_pow_mul_add n hlow]
  simp [PTE_P]

theorem ppn_mkPte : ppn (mkPte (n * PGSIZE) perm) = n := by
  have hlow : perm ||| PTE_P < 2 ^ 12 := or_lt_two_pow hp (by decide)
  rw [ppn_eq, toNat_mkPte hn hp, show PGSIZE = 2 ^ 12 from rfl,
    mul_add_div (by decide), div_eq_of_lt hlow, add_zero]

theorem user_mkPte : user (mkPte (n * PGSIZE) perm) = perm.testBit 2 := by
  have hlow : perm ||| PTE_P < 2 ^ 12 := or_lt_two_pow hp (by decide)
  rw [user_eq, toNat_mkPte hn hp, testBit_two_pow_mul_add n hlow, if_pos (by decide),
    testBit_or, show testBit PTE_P 2 = false from rfl, Bool.or_false]

omit hn hp

theorem flags_eq (w : UInt32) : flags w = w.toNat % 2 ^ 12 := by
  rw [flags, UInt32.toNat_and, show (0xFFF : UInt32).toNat = 2 ^ 12 - 1 from rfl,
    and_two_pow_sub_one_eq_mod]

variable {w : UInt32}

/-- The flags of a present entry, put into another one. -/
theorem flags_mkPte (hn : n < 2 ^ 20) (hw : present w = true) :
    flags (mkPte (n * PGSIZE) (flags w)) = flags w := by
  have hp : (flags w).testBit 0 = true := by
    rw [flags_eq, testBit_mod_two_pow, ← present_eq, hw]
    rfl
  have hor : flags w ||| PTE_P = flags w := by
    refine eq_of_testBit_eq fun i => ?_
    rw [testBit_or]
    cases i with
    | zero => rw [hp, Bool.true_or]
    | succ i => simp [PTE_P, testBit_succ]
  rw [flags_eq (mkPte _ _), toNat_mkPte hn (flags_lt w), hor, mul_add_mod]
  exact mod_eq_of_lt (flags_lt w)

/-- `w & ~PTE_U`. -/
def clearU (w : UInt32) : UInt32 := w &&& ~~~4

theorem toNat_clearU (w : UInt32) : (clearU w).toNat = w.toNat &&& 0xFFFFFFFB := by
  rw [clearU, UInt32.toNat_and]
  rfl

theorem present_clearU (w : UInt32) : present (clearU w) = present w := by
  rw [present_eq, present_eq, toNat_clearU, testBit_and]
  simp

theorem ppn_clearU (w : UInt32) : ppn (clearU w) = ppn w := by
  have hlt := w.toNat_lt
  rw [ppn_eq, ppn_eq, toNat_clearU, show PGSIZE = 2 ^ 12 from rfl, ← shiftRight_eq_div_pow,
    shiftRight_and_distrib, show 0xFFFFFFFB >>> 12 = 2 ^ 20 - 1 from rfl,
    and_two_pow_sub_one_eq_mod, shiftRight_eq_div_pow]
  exact mod_eq_of_lt (by omega)

theorem user_clearU (w : UInt32) : user (clearU w) = false := by
  rw [user_eq, toNat_clearU, testBit_and, show testBit 0xFFFFFFFB 2 = false from rfl,
    Bool.and_false]

/-- The page that an entry refers to. -/
def target (w : UInt32) : Option ℕ := if present w then some (ppn w) else none

theorem target_eq_none : target w = none ↔ present w = false := by
  rw [target]
  cases present w <;> simp

theorem target_eq_some : target w = some n ↔ present w = true ∧ ppn w = n := by
  rw [target]
  cases present w <;> simp

theorem target_zero : target 0 = none := rfl

theorem target_mkPte (hn : n < 2 ^ 20) (hp : perm < 4096) :
    target (mkPte (n * PGSIZE) perm) = some n :=
  target_eq_some.2 ⟨present_mkPte hn hp, ppn_mkPte hn hp⟩

theorem target_clearU (w : UInt32) : target (clearU w) = target w := by
  rw [target, target, present_clearU, ppn_clearU]

/-! ## Spaces -/

/-- The state after a store of the word `w` to entry `j` of the page `t`. -/
abbrev Phys.put (s : Phys) (t j : ℕ) (w : UInt32) : Phys :=
  { s with mem := update s.mem t ((s.mem t).putU32 (4 * j) w) }

section Spaces

variable {mem mem' : ℕ → Page} {d i j n t v : ℕ} {w : UInt32}

/-- `NPDENTRIES`, and `NPTENTRIES`. -/
def NPDENTRIES : ℕ := 1024

/-- The number of virtual pages below `KERNBASE`. -/
def USERPAGES : ℕ := 0x80000

/-- The page table at entry `i` of the directory `d`. -/
def tab (mem : ℕ → Page) (d i : ℕ) : Option ℕ := target (word mem d i)

/-- The entry for the virtual page `v` in the space `d`. -/
def pte (mem : ℕ → Page) (d v : ℕ) : UInt32 :=
  match tab mem d (v / NPDENTRIES) with
  | some t => word mem t (v % NPDENTRIES)
  | none => 0

/-- The page tables of the space. -/
def tables (mem : ℕ → Page) (d : ℕ) : Multiset ℕ := picks (tab mem d) NPDENTRIES

/-- The pages that are mapped below `KERNBASE`. -/
def users (mem : ℕ → Page) (d : ℕ) : Multiset ℕ :=
  picks (fun v => target (pte mem d v)) USERPAGES

/-- The pages that the space consists of. -/
def pages (mem : ℕ → Page) (d : ℕ) : Multiset ℕ := d ::ₘ (tables mem d + users mem d)

theorem mem_tables (hi : i < NPDENTRIES) (h : tab mem d i = some t) : t ∈ tables mem d :=
  mem_picks.2 ⟨i, hi, h⟩

theorem word_of_le (hi : NPDENTRIES ≤ i) : word mem n i = 0 :=
  Buf.getU32_of_le (by simp only [NPDENTRIES, PGSIZE] at *; omega)

theorem tab_lt (h : tab mem d i = some t) : i < NPDENTRIES := by
  by_contra hi
  rw [tab, word_of_le (Nat.le_of_not_lt hi), target_zero] at h
  cases h

/-- A space depends on its directory and its page tables only. -/
theorem pte_congr (hd : mem' d = mem d) (ht : ∀ t ∈ tables mem d, mem' t = mem t) :
    tab mem' d = tab mem d ∧ pte mem' d = pte mem d := by
  have htab : tab mem' d = tab mem d := by
    funext i
    rw [tab, word, hd]
    rfl
  refine ⟨htab, funext fun v => ?_⟩
  rw [pte, pte, htab]
  cases h : tab mem d (v / NPDENTRIES) with
  | none => rfl
  | some t =>
    show word mem' t _ = word mem t _
    rw [word, ht t (mem_tables (tab_lt h) h)]
    rfl

/-- Nothing of a space changes as long as its pages do not. -/
theorem pages_congr (h : ∀ n ∈ pages mem d, mem' n = mem n) :
    pages mem' d = pages mem d ∧ tab mem' d = tab mem d ∧ pte mem' d = pte mem d := by
  obtain ⟨htab, hpte⟩ := pte_congr (h d (mem_cons_self d _)) fun t ht =>
    h t (mem_cons_of_mem (mem_add.2 (.inl ht)))
  rw [pages, tables, users, htab, hpte]
  exact ⟨rfl, rfl, rfl⟩

/-- **A store to a page table** changes one entry of the space. -/
theorem pte_putWord (hnodup : (tables mem d).Nodup) (htd : t ≠ d) (ht : tab mem d i = some t)
    (hj : j < NPDENTRIES) :
    tab (update mem t ((mem t).putU32 (4 * j) w)) d = tab mem d ∧
      pte (update mem t ((mem t).putU32 (4 * j) w)) d =
        update (pte mem d) (i * NPDENTRIES + j) w := by
  set mem' := update mem t ((mem t).putU32 (4 * j) w) with hmem
  have htab : tab mem' d = tab mem d := by
    funext i
    rw [tab, word, hmem, update_of_ne htd.symm]
    rfl
  refine ⟨htab, funext fun v => ?_⟩
  have hij : i * NPDENTRIES + j = v ↔ v / NPDENTRIES = i ∧ v % NPDENTRIES = j := by
    simp only [NPDENTRIES] at *
    omega
  rw [pte, htab]
  by_cases hv : v = i * NPDENTRIES + j
  · obtain ⟨hi, hj'⟩ := hij.1 hv.symm
    rw [hv, update_self, ← hv, hi, ht, hj']
    show (mem' t).getU32 (4 * j) = w
    rw [hmem, update_self]
    exact Buf.getU32_putU32 (by simp only [NPDENTRIES, PGSIZE] at *; omega)
  · rw [update_of_ne hv, pte]
    cases htv : tab mem d (v / NPDENTRIES) with
    | none => rfl
    | some t' =>
      show (mem' t').getU32 _ = (mem t').getU32 _
      by_cases htt : t' = t
      · subst htt
        have hi : v / NPDENTRIES = i := picks_inj hnodup (tab_lt htv) (tab_lt ht) htv ht
        have hne : v % NPDENTRIES ≠ j := fun h => hv (hij.2 ⟨hi, h⟩).symm
        rw [hmem, update_self]
        exact Buf.getU32_putU32_of_ne (by omega)
      · rw [hmem, update_of_ne htt]

/-- **A store to the directory** that adds an empty page table leaves all entries as they are. -/
theorem pte_addTable (hi : i < NPDENTRIES) (hnone : tab mem d i = none) (htd : t ≠ d)
    (hd : d ∉ tables mem d) (htarget : target w = some t) (hzero : ∀ j, word mem t j = 0) :
    (∀ k, tab (update mem d ((mem d).putU32 (4 * i) w)) d k =
        if k = i then some t else tab mem d k) ∧
      pte (update mem d ((mem d).putU32 (4 * i) w)) d = pte mem d := by
  set mem' := update mem d ((mem d).putU32 (4 * i) w) with hmem
  have htab : ∀ k, tab mem' d k = if k = i then some t else tab mem d k := by
    intro k
    rw [tab, word, hmem, update_self]
    split_ifs with hk
    · subst hk
      rw [Buf.getU32_putU32 (by simp only [NPDENTRIES, PGSIZE] at *; omega), htarget]
    · rw [Buf.getU32_putU32_of_ne (by omega)]
      rfl
  refine ⟨htab, funext fun v => ?_⟩
  rw [pte, pte, htab]
  split_ifs with hv
  · rw [hv, hnone]
    show (mem' t).getU32 _ = 0
    rw [hmem, update_of_ne htd]
    exact hzero _
  · cases htv : tab mem d (v / NPDENTRIES) with
    | none => rfl
    | some t' =>
      have hne : t' ≠ d := by
        rintro rfl
        exact hd (mem_tables (tab_lt htv) htv)
      show (mem' t').getU32 _ = (mem t').getU32 _
      rw [hmem, update_of_ne hne]

end Spaces

/-! ## Ownership -/

/-- The pages `A`, all of the allocator's and each once, are the free list `l`, the pages of the
spaces `D`, and `H`; outside of them memory is as in `s₀`. -/
structure Own (L : Layout) (A : Multiset ℕ) (s₀ s : Phys) (l : List ℕ) (D H : Multiset ℕ) :
    Prop where
  nodup : A.Nodup
  ram : ∀ n ∈ A, L.Ram n
  free : Free s.mem s.freelist l
  sum : (l : Multiset ℕ) + D.bind (pages s.mem) + H = A
  keeps : ∀ n, n ∉ A → s.mem n = s₀.mem n
  denied : s.denied = s₀.denied

namespace Own

variable {L : Layout} {A D H : Multiset ℕ} {s₀ s : Phys} {l : List ℕ} {d n t : ℕ}
  {i j : ℕ} {w : UInt32}

theorem mem_of_free (h : Own L A s₀ s l D H) (hn : n ∈ l) : n ∈ A := by
  rw [← h.sum]
  exact mem_add.2 (.inl (mem_add.2 (.inl (mem_coe.2 hn))))

theorem mem_of_held (h : Own L A s₀ s l D H) (hn : n ∈ H) : n ∈ A := by
  rw [← h.sum]
  exact mem_add.2 (.inr hn)

theorem mem_of_pages (h : Own L A s₀ s l D H) (hd : d ∈ D) (hn : n ∈ pages s.mem d) : n ∈ A := by
  rw [← h.sum]
  exact mem_add.2 (.inl (mem_add.2 (.inr (mem_bind.2 ⟨d, hd, hn⟩))))

/-- The three parts have no page in common. -/
theorem disjoint (h : Own L A s₀ s l D H) :
    (∀ n ∈ l, ∀ d ∈ D, n ∉ pages s.mem d) ∧ (∀ n ∈ H, n ∉ l) ∧
      ∀ n ∈ H, ∀ d ∈ D, n ∉ pages s.mem d := by
  have hnodup := h.nodup
  rw [← h.sum] at hnodup
  obtain ⟨h1, -, h2⟩ := nodup_add.1 hnodup
  obtain ⟨-, -, h3⟩ := nodup_add.1 h1
  rw [disjoint_left] at h2 h3
  refine ⟨fun n hn d hd hp => ?_, fun n hn hl => ?_, fun n hn d hd hp => ?_⟩
  · exact h3 (mem_coe.2 hn) (mem_bind.2 ⟨d, hd, hp⟩)
  · exact h2 (mem_add.2 (.inl (mem_coe.2 hl))) hn
  · exact h2 (mem_add.2 (.inr (mem_bind.2 ⟨d, hd, hp⟩))) hn

/-- **A store to a held page.** -/
theorem setHeld (h : Own L A s₀ s l D H) (hn : n ∈ H) (b : Page) :
    Own L A s₀ { s with mem := update s.mem n b } l D H := by
  obtain ⟨-, hl, hD⟩ := h.disjoint
  have hne : ∀ m, m ≠ n → update s.mem n b m = s.mem m := fun m hm =>
    update_of_ne hm _ _
  refine ⟨h.nodup, h.ram, ?_, ?_, ?_, h.denied⟩
  · exact h.free.congr fun m hm => hne m fun hmn => hl n hn (hmn ▸ hm)
  · have hbind : D.bind (pages (update s.mem n b)) = D.bind (pages s.mem) :=
      bind_congr fun d hd =>
        (pages_congr fun m hm => hne m fun hmn => hD n hn d hd (hmn ▸ hm)).1
    show (l : Multiset ℕ) + D.bind (pages (update s.mem n b)) + H = A
    rw [hbind, h.sum]
  · intro m hm
    exact (hne m fun hmn => hm (hmn ▸ h.mem_of_held hn)).trans (h.keeps m hm)

/-- It changes nothing in the spaces. -/
theorem setHeld_view (h : Own L A s₀ s l D H) (hn : n ∈ H) (hd : d ∈ D) (b : Page) :
    tab (update s.mem n b) d = tab s.mem d ∧
      pte (update s.mem n b) d = pte s.mem d := by
  have hsame : ∀ m ∈ pages s.mem d, update s.mem n b m = s.mem m := by
    intro m hm
    refine update_of_ne ?_ _ _
    rintro rfl
    exact h.disjoint.2.2 m hn d hd hm
  exact (pages_congr hsame).2

/-! ### One space -/

variable (h : Own L A s₀ s l {d} H)

include h

theorem sum_singleton : (l : Multiset ℕ) + pages s.mem d + H = A := by
  rw [← h.sum, singleton_bind]

theorem nodup_pages : (pages s.mem d).Nodup := by
  have hnodup := h.nodup
  rw [← h.sum_singleton] at hnodup
  obtain ⟨h1, -, -⟩ := nodup_add.1 hnodup
  obtain ⟨-, h2, -⟩ := nodup_add.1 h1
  exact h2

theorem nodup_tables : (tables s.mem d).Nodup := by
  have hnodup := h.nodup_pages
  rw [pages, nodup_cons, nodup_add] at hnodup
  exact hnodup.2.1

theorem dir_not_table : d ∉ tables s.mem d := fun hd =>
  (nodup_cons.1 h.nodup_pages).1 (mem_add.2 (.inl hd))

theorem table_mem (ht : tab s.mem d i = some t) : t ∈ pages s.mem d ∧ t ≠ d := by
  have hmem := mem_tables (tab_lt ht) ht
  exact ⟨mem_cons_of_mem (mem_add.2 (.inl hmem)),
    fun hd => h.dir_not_table (hd ▸ hmem)⟩

/-- A store to a page of the space, if the space still consists of the same pages. -/
theorem setSpace (hn : n ∈ pages s.mem d) (b : Page) {H' : Multiset ℕ}
    (hsum : pages (update s.mem n b) d + H' = pages s.mem d + H) :
    Own L A s₀ { s with mem := update s.mem n b } l {d} H' := by
  obtain ⟨hl, -, -⟩ := h.disjoint
  have hne : ∀ m, m ≠ n → update s.mem n b m = s.mem m := fun m hm =>
    update_of_ne hm _ _
  refine ⟨h.nodup, h.ram, ?_, ?_, ?_, h.denied⟩
  · refine h.free.congr fun m hm => hne m ?_
    rintro rfl
    exact hl m hm d (mem_singleton_self d) hn
  · dsimp only
    rw [singleton_bind, add_assoc, hsum, ← add_assoc, h.sum_singleton]
  · intro m hm
    refine (hne m ?_).trans (h.keeps m hm)
    rintro rfl
    exact hm (h.mem_of_pages (mem_singleton_self d) hn)

/-- **A store to an entry of a page table**, if what the space loses or gains is held before or
afterwards. -/
theorem setPte (ht : tab s.mem d i = some t)
    (hj : j < NPDENTRIES) (w : UInt32) {H' : Multiset ℕ}
    (hsum : picks (fun v => target (update (pte s.mem d) (i * NPDENTRIES + j) w v))
      USERPAGES + H' = users s.mem d + H) :
    Own L A s₀ (s.put t j w) l {d} H' := by
  obtain ⟨htp, htd⟩ := h.table_mem ht
  obtain ⟨htab, hpte⟩ := pte_putWord (w := w) h.nodup_tables htd ht hj
  refine h.setSpace htp _ ?_
  rw [pages, pages, tables, users, htab, hpte, cons_add, cons_add, add_assoc, add_assoc, hsum]
  rfl

theorem put_view (ht : tab s.mem d i = some t) (hj : j < NPDENTRIES) (w : UInt32) :
    tab (s.put t j w).mem d = tab s.mem d ∧
      pte (s.put t j w).mem d = update (pte s.mem d) (i * NPDENTRIES + j) w :=
  pte_putWord h.nodup_tables (h.table_mem ht).2 ht hj

omit h

/-- Mapping a held page below `KERNBASE`. -/
theorem map (h : Own L A s₀ s l {d} (n ::ₘ H)) (ht : tab s.mem d i = some t) (hj : j < NPDENTRIES)
    (hv : i * NPDENTRIES + j < USERPAGES) (hno : present (pte s.mem d (i * NPDENTRIES + j)) = false)
    (hw : target w = some n) : Own L A s₀ (s.put t j w) l {d} H := by
  refine h.setPte ht hj w ?_
  rw [picks_update hv (f := fun v => target (pte s.mem d v)) (target_eq_none.2 hno)
    (by rw [update_self, hw]) fun k hk => by rw [update_of_ne hk]]
  rw [cons_add, add_cons]
  rfl

variable (h : Own L A s₀ s l {d} H) (ht : tab s.mem d i = some t) (hj : j < NPDENTRIES)

include h ht hj

/-- Unmapping a page below `KERNBASE`: it is held then. -/
theorem unmap (hv : i * NPDENTRIES + j < USERPAGES)
    (hn : target (pte s.mem d (i * NPDENTRIES + j)) = some n) :
    Own L A s₀ (s.put t j 0) l {d} (n ::ₘ H) := by
  refine h.setPte ht hj 0 ?_
  rw [users, picks_update hv (g := fun v => target (pte s.mem d v))
    (f := fun v => target (update (pte s.mem d) (i * NPDENTRIES + j) 0 v))
    (by rw [update_self, target_zero]) hn fun k hk => by rw [update_of_ne hk]]
  rw [cons_add, add_cons]

/-- A store that leaves alone what is mapped below `KERNBASE`. -/
theorem remap (hw : i * NPDENTRIES + j < USERPAGES →
      target w = target (pte s.mem d (i * NPDENTRIES + j))) :
    Own L A s₀ (s.put t j w) l {d} H := by
  refine h.setPte ht hj w ?_
  congr 1
  refine picks_congr fun v hv => ?_
  by_cases hvij : v = i * NPDENTRIES + j
  · rw [hvij, update_self, hw (hvij ▸ hv)]
  · rw [update_of_ne hvij]

omit h ht hj

/-- **A new page table**, still empty, out of a held page. -/
theorem addTable (h : Own L A s₀ s l {d} (t ::ₘ H)) (hi : i < NPDENTRIES)
    (hnone : tab s.mem d i = none) (hzero : ∀ j, word s.mem t j = 0) (hw : target w = some t) :
    Own L A s₀ (s.put d i w) l {d} H ∧ pte (s.put d i w).mem d = pte s.mem d ∧
      ∀ k, tab (s.put d i w).mem d k = if k = i then some t else tab s.mem d k := by
  obtain ⟨-, -, hH⟩ := h.disjoint
  have htp := hH t (mem_cons_self t H) d (mem_singleton_self d)
  have htd : t ≠ d := by
    rintro rfl
    exact htp (mem_cons_self t _)
  obtain ⟨htab, hpte⟩ := pte_addTable hi hnone htd h.dir_not_table hw hzero
  refine ⟨h.setSpace (mem_cons_self d _) _ ?_, hpte, htab⟩
  have htables : tables (s.put d i w).mem d = t ::ₘ tables s.mem d :=
    picks_update hi hnone (by rw [htab, if_pos rfl]) fun k hk => by rw [htab, if_neg hk]
  have husers : users (s.put d i w).mem d = users s.mem d := by
    rw [users, users, hpte]
  rw [pages, pages, htables, husers]
  simp only [← singleton_add]
  abel

end Own

section Alloc

variable {L : Layout} {A D H : Multiset ℕ} {s₀ s : Phys} {l : List ℕ} {n : ℕ}
  {E : Fail → Prop}

/-- Why `kalloc` finds nothing. -/
def Short (s₀ : Phys) (l : List ℕ) : Prop := (∃ k, s₀.denied k = true) ∨ l = []

/-- **`kalloc`** takes the first free page, if it finds one. -/
theorem wp_kalloc {Q : Option ℕ → Phys → Prop} (h : Own L A s₀ s l D H)
    (hnone : ∀ s', s'.mem = s.mem → Own L A s₀ s' l D H → Short s₀ l → Q none s')
    (hsome : ∀ n l' s', l = n :: l' → s'.mem = s.mem → Own L A s₀ s' l' D (n ::ₘ H) →
      Q (some n) s') : wp kalloc E Q s := by
  have hasked : Own L A s₀ { s with asked := s.asked + 1 } l D H :=
    ⟨h.nodup, h.ram, h.free, h.sum, h.keeps, h.denied⟩
  rw [kalloc]
  simp only [wp_bind, wp_get, wp_set, wp_ite, wp_pure]
  refine ⟨fun hden => hnone { s with asked := s.asked + 1 } rfl hasked
    (.inl ⟨s.asked, h.denied ▸ hden⟩), fun _ => ?_⟩
  have hfree := h.free
  cases l with
  | nil =>
    exact ⟨fun _ => hnone { s with asked := s.asked + 1 } rfl hasked (.inr rfl),
      fun h0 => absurd hfree h0⟩
  | cons n l' =>
    have hlt : n < 0xE000 := (h.ram n (h.mem_of_free List.mem_cons_self)).lt
    refine ⟨fun h0 => absurd (hfree.1.symm.trans h0) (kva_ne_zero hlt), fun _ => ?_⟩
    rw [hfree.1, pageOf_kva hlt, getWord]
    simp only [wp_bind, wp_get, wp_pure, wp_modify]
    refine hsome n l' _ rfl rfl ⟨h.nodup, h.ram, hfree.2, ?_, h.keeps, h.denied⟩
    rw [← h.sum, ← cons_coe]
    simp only [← singleton_add]
    abel

/-- The state after `kfree`. -/
def Phys.freed (s : Phys) (n : ℕ) : Phys :=
  { s with mem := update s.mem n (Buf.putU32 (fun _ => 1) 0 s.freelist), freelist := kva n }

theorem wp_kfree_eq {Q : Unit → Phys → Prop} (hn : L.Ram n) :
    wp (kfree L n) E Q s ↔ Q () (s.freed n) := by
  have hok : ¬(n * PGSIZE < L.end ∨ PHYSTOP ≤ n * PGSIZE) := by
    have h1 := hn.1
    have h2 := hn.2
    simp only [Layout.first, PGROUNDUP, PGSIZE, PHYSTOP] at *
    omega
  rw [kfree]
  simp only [if_neg hok, memset, putWord, setPage, wp_bind, wp_get, wp_modify,
    update_idem, update_self, mul_zero]
  rfl

/-- **A held page is put on the list.** -/
theorem Own.freed (h : Own L A s₀ s l D (n ::ₘ H)) : Own L A s₀ (s.freed n) (n :: l) D H := by
  have hset := h.setHeld (mem_cons_self n H) (Buf.putU32 (fun _ => 1 : Page) 0 s.freelist)
  refine ⟨h.nodup, h.ram, ⟨rfl, ?_⟩, ?_, hset.keeps, h.denied⟩
  · rw [word, Phys.freed]
    dsimp only
    rw [update_self, mul_zero, Buf.getU32_putU32 (by decide)]
    exact hset.free
  · rw [← hset.sum, ← cons_coe]
    simp only [← singleton_add, Phys.freed]
    abel

theorem Own.ram_held (h : Own L A s₀ s l D (n ::ₘ H)) : L.Ram n :=
  h.ram n (h.mem_of_held (mem_cons_self n H))

theorem Phys.freed_mem_of_ne {m : ℕ} (h : m ≠ n) : (s.freed n).mem m = s.mem m :=
  update_of_ne h _ _

/-- **`kfree`** puts a held page on the list. -/
theorem wp_kfree {Q : Unit → Phys → Prop} (h : Own L A s₀ s l D (n ::ₘ H))
    (hQ : Own L A s₀ (s.freed n) (n :: l) D H → Q () (s.freed n)) : wp (kfree L n) E Q s :=
  (wp_kfree_eq h.ram_held).2 (hQ h.freed)

/-- Another page may be stored to before or after. -/
theorem Phys.freed_put {t j : ℕ} {w : UInt32} (h : t ≠ n) :
    (s.freed n).put t j w = (s.put t j w).freed n := by
  simp only [Phys.freed, Phys.put, update_of_ne h]
  rw [update_comm h]

end Alloc

/-! ## Parts of memory -/

section Frame

variable {L : Layout} {A D1 D2 H1 H2 D' H' : Multiset ℕ} {s₀ s s' : Phys} {l l' : List ℕ}

variable (h : Own L A s₀ s l (D1 + D2) (H1 + H2))

include h

/-- The pages of a part are pages of the whole. -/
theorem Own.part_le :
    (l : Multiset ℕ) + D1.bind (pages s.mem) + H1 + (D2.bind (pages s.mem) + H2) = A := by
  rw [← h.sum, add_bind]
  abel

/-- **A part of the pages** can be looked at alone. -/
theorem Own.restrict : Own L ((l : Multiset ℕ) + D1.bind (pages s.mem) + H1) s s l D1 H1 := by
  have hle : (l : Multiset ℕ) + D1.bind (pages s.mem) + H1 ≤ A :=
    Multiset.le_iff_exists_add.2 ⟨_, h.part_le.symm⟩
  exact ⟨nodup_of_le hle h.nodup, fun n hn => h.ram n (mem_of_le hle hn), h.free,
    rfl, fun _ _ => rfl, rfl⟩

/-- **The frame rule**: what happened to a part leaves the rest as it was. -/
theorem Own.frame (h' : Own L ((l : Multiset ℕ) + D1.bind (pages s.mem) + H1) s s' l' D' H') :
    Own L A s₀ s' l' (D' + D2) (H' + H2) ∧
      ∀ d ∈ D2, ∀ n ∈ pages s.mem d, s'.mem n = s.mem n := by
  have hpart := h.part_le
  have hnodup := h.nodup
  rw [← hpart, nodup_add, disjoint_left] at hnodup
  have hrest : ∀ d ∈ D2, ∀ n ∈ pages s.mem d, s'.mem n = s.mem n := by
    intro d hd n hn
    refine h'.keeps n fun hA => hnodup.2.2 hA ?_
    exact mem_add.2 (.inl (mem_bind.2 ⟨d, hd, hn⟩))
  have hbind : D2.bind (pages s'.mem) = D2.bind (pages s.mem) :=
    bind_congr fun d hd => (pages_congr (hrest d hd)).1
  refine ⟨⟨h.nodup, h.ram, h'.free, ?_, fun n hn => ?_, h'.denied.trans h.denied⟩, hrest⟩
  · rw [← hpart, ← h'.sum, add_bind, hbind]
    abel
  · refine (h'.keeps n fun hA => hn ?_).trans (h.keeps n hn)
    rw [← hpart]
    exact mem_add.2 (.inl hA)

omit h

/-- The free pages can be looked at alone. -/
theorem Own.restrict_free {D H : Multiset ℕ} (h : Own L A s₀ s l D H) : Own L l s s l 0 0 := by
  rw [← zero_add D, ← zero_add H] at h
  simpa only [zero_bind, add_zero] using h.restrict

/-- A proper free list. -/
theorem own_of_free (hfree : Free s.mem s.freelist l) (hnodup : l.Nodup) (hram : ∀ n ∈ l, L.Ram n) :
    Own L l s s l 0 0 :=
  ⟨coe_nodup.2 hnodup, fun n hn => hram n (mem_coe.1 hn), hfree,
    by rw [zero_bind, add_zero, add_zero], fun _ _ => rfl, rfl⟩

/-- What was made of free pages leaves the rest as it was. -/
theorem Own.frame_free {D H : Multiset ℕ} (h : Own L A s₀ s l D H) (h' : Own L l s s' l' D' H') :
    Own L A s₀ s' l' (D' + D) (H' + H) ∧ ∀ d ∈ D, ∀ n ∈ pages s.mem d, s'.mem n = s.mem n := by
  rw [← zero_add D, ← zero_add H] at h
  exact h.frame (by simpa only [zero_bind, add_zero] using h')

end Frame

end Xv6.Vm
