/-
# User memory

What `allocuvm`, `copyuvm`, `clearpteu`, `loaduvm` and `copyout` do to a space. The first two map
pages or, failing that, give back what they took; the others store to pages that are mapped already
and leave the mapping as it is.
-/
import Xv6.Vm.Lookup
import Xv6.Vm.Memory

namespace Xv6.Vm

open Function Lib List Multiset Nat Option

variable {L : Layout} {A D H : Multiset ℕ} {s₀ s s1 : Phys} {l l1 : List ℕ}
  {d n t v va oldsz lim newsz : ℕ} {E : Fail → Prop} {Q : ℤ → Phys → Prop} {u : ℕ}

/-! ## allocuvm -/

/-- Why `allocuvm` fails: `kalloc` found nothing, with no more taken than the page tables of a space
and the pages below `sz`. -/
def Tight (s₀ : Phys) (A H : Multiset ℕ) (sz : ℕ) : Prop :=
  (∃ k, s₀.denied k = true) ∨ A.card ≤ 1027 + sz / PGSIZE + H.card

/-- The pages of one space and the free list. -/
theorem Own.card_le (sz : ℕ) (h : Own L A s₀ s l {d} H)
    (hno : ∀ u < USERPAGES, present (pte s.mem d u) = true → u ≤ sz / PGSIZE) :
    A.card ≤ l.length + 1026 + sz / PGSIZE + H.card := by
  have htables : (tables s.mem d).card ≤ NPDENTRIES - 0 :=
    card_picks_le (zero_le _) fun i hi => absurd hi (not_lt_zero i)
  have husers : (users s.mem d).card ≤ sz / PGSIZE + 1 := by
    refine card_picks_le_of_ge fun u hu hlt => target_eq_none.2 ?_
    cases hp : present (pte s.mem d u) with
    | false => rfl
    | true =>
      have := hno u hlt hp
      omega
  rw [← h.sum_singleton, pages, card_add, card_add, coe_card, card_cons, card_add]
  simp only [NPDENTRIES] at htables
  omega

theorem tight_of_short {sz : ℕ} (h : Own L A s₀ s l {d} H)
    (hno : ∀ u < USERPAGES, present (pte s.mem d u) = true → u ≤ sz / PGSIZE)
    (hshort : Short s₀ l) :
    (∃ k, s₀.denied k = true) ∨ A.card ≤ 1026 + sz / PGSIZE + H.card := by
  refine hshort.imp id fun hl => ?_
  have := h.card_le sz hno
  rwa [hl, length_nil, zero_add] at this

/-- The entries `f` of a space after pages were mapped from the size `oldsz` up to `lim`. -/
structure Grown (f g : ℕ → UInt32) (oldsz lim : ℕ) : Prop where
  old : ∀ u, ¬(oldsz ≤ u * PGSIZE ∧ u * PGSIZE < lim) → g u = f u
  new : ∀ u, oldsz ≤ u * PGSIZE → u * PGSIZE < lim → present (g u) = true ∧ user (g u) = true

/-- What `allocuvm` does to the space `d`, with the free pages `l` before: from the size `oldsz` up
to `lim` there are zeroed pages that were free. -/
structure Allocated (s s' : Phys) (l l' : List ℕ) (d oldsz lim : ℕ) : Prop where
  built : Built s s' l l' d
  high : ∀ i, 512 ≤ i → tab s'.mem d i = tab s.mem d i
  old : ∀ u, ¬(oldsz ≤ u * PGSIZE ∧ u * PGSIZE < lim) → pte s'.mem d u = pte s.mem d u
  new : ∀ u, oldsz ≤ u * PGSIZE → u * PGSIZE < lim → ∃ n ∈ l,
    pte s'.mem d u = mkPte (n * PGSIZE) (PTE_W ||| PTE_U) ∧ s'.mem n = fun _ => 0

/-- With no addresses, nothing happens. -/
theorem Allocated.nil (s : Phys) (l : List ℕ) (d : ℕ)
    (h : ∀ u, oldsz ≤ u * PGSIZE → ¬ u * PGSIZE < lim) : Allocated s s l l d oldsz lim :=
  ⟨.refl s l d, fun _ _ => rfl, fun _ _ => rfl, fun u hu hu' => absurd hu' (h u hu)⟩

theorem perm_lt : PTE_W ||| PTE_U < 4096 := by decide

theorem Allocated.grown {s' : Phys} {l' : List ℕ} (h : Own L A s₀ s l D H)
    (ha : Allocated s s' l l' d oldsz lim) : Grown (pte s.mem d) (pte s'.mem d) oldsz lim := by
  refine ⟨ha.old, fun u hu hu' => ?_⟩
  obtain ⟨n, hn, hpte, -⟩ := ha.new u hu hu'
  have hlt := (h.ram n (h.mem_of_free hn)).lt
  rw [hpte]
  exact ⟨present_mkPte (by omega) perm_lt, (user_mkPte (by omega) perm_lt).trans (by decide)⟩

theorem mul_lt_mul_page : u * PGSIZE < v * PGSIZE ↔ u < v :=
  Nat.mul_lt_mul_right (by decide)

/-- A page taken from the list and cleared. -/
theorem Built.take {s' : Phys} {l' : List ℕ} (hl : l = n :: l') (hmem : s'.mem = s.mem)
    (h : Own L A s₀ s' l' {d} (n ::ₘ H)) (b : Page) :
    Built s { s' with mem := update s'.mem n b } l l' d := by
  have hview := (h.setHeld_view (Multiset.mem_cons_self n H) (Multiset.mem_singleton_self d) b).1
  refine ⟨fun m hm => by rw [hl]; exact mem_cons_of_mem n hm, fun i t ht => ?_,
    fun t ht => .inl ?_, fun m hml _ _ => ?_⟩
  · dsimp only
    rw [hview, hmem, ht]
  · rwa [Vm.tables, hview, hmem] at ht
  · dsimp only
    rw [update_of_ne (by rintro rfl; exact hml (by rw [hl]; exact mem_cons_self)), hmem]

theorem Built.of_mem {s' : Phys} (h : s'.mem = s.mem) : Built s s' l l d := by
  refine ⟨fun _ hm => hm, ?_, ?_, ?_⟩ <;> rw [h]
  · exact fun _ _ ht => ht
  · exact fun _ ht => .inl ht
  · exact fun _ _ _ _ => rfl

variable (ha : Allocated s1 s l1 l d oldsz lim) (h : Own L A s₀ s l {d} H)
  (hram : ∀ m ∈ l1, m < 0xE000)

include ha h hram

/-- The pages that are mapped already stay as they are. -/
theorem Allocated.still {s' : Phys} {l' : List ℕ} (hlim : lim ≤ KERNBASE)
    (hbuilt : Built s s' l l' d)
    (hu : oldsz ≤ u * PGSIZE) (hu' : u * PGSIZE < lim) :
    ∃ n ∈ l1, pte s.mem d u = mkPte (n * PGSIZE) (PTE_W ||| PTE_U) ∧ s'.mem n = fun _ => 0 := by
  obtain ⟨m, hm, hpm, hzm⟩ := ha.new u hu hu'
  have htarget : target (pte s.mem d u) = some m := by
    have := hram m hm
    rw [hpm, target_mkPte (by omega) perm_lt]
  obtain ⟨hmp, hmd, hmt⟩ := h.target_mem (user_of_lt hlim hu') htarget
  refine ⟨m, hm, hpm, ?_⟩
  rw [hbuilt.mem m (fun hml => h.disjoint.1 m hml d (Multiset.mem_singleton_self d) hmp) hmd hmt,
    hzm]

/-- Work on other pages. -/
theorem Allocated.keep {s' : Phys} {l' : List ℕ} (hlim : lim ≤ KERNBASE)
    (hbuilt : Built s s' l l' d)
    (hhigh : ∀ i, 512 ≤ i → tab s'.mem d i = tab s.mem d i)
    (hpte : pte s'.mem d = pte s.mem d) : Allocated s1 s' l1 l' d oldsz lim := by
  refine ⟨ha.built.trans hbuilt, fun i hi => (hhigh i hi).trans (ha.high i hi), fun u hu => ?_,
    fun u hu hu' => ?_⟩
  · rw [hpte, ha.old u hu]
  · rw [hpte]
    exact ha.still h hram hlim hbuilt hu hu'

omit ha h hram

/-- One page more. -/
theorem Allocated.step {s' : Phys} {l' : List ℕ} (ha : Allocated s1 s l1 l d oldsz (v * PGSIZE))
    (h : Own L A s₀ s l {d} H) (hram : ∀ m ∈ l1, m < 0xE000) (hv : oldsz ≤ v * PGSIZE)
    (hlim : v * PGSIZE ≤ KERNBASE) (hn : n ∈ l) (hbuilt : Built s s' l l' d)
    (hhigh : ∀ i, 512 ≤ i → tab s'.mem d i = tab s.mem d i)
    (hpte : pte s'.mem d = update (pte s.mem d) v (mkPte (n * PGSIZE) (PTE_W ||| PTE_U)))
    (hzero : s'.mem n = fun _ => 0) : Allocated s1 s' l1 l' d oldsz ((v + 1) * PGSIZE) := by
  refine ⟨ha.built.trans hbuilt, fun i hi => (hhigh i hi).trans (ha.high i hi), fun u hu => ?_,
    fun u hu hu' => ?_⟩
  · rw [mul_lt_mul_page] at hu
    have hne : u ≠ v := by
      rintro rfl
      exact hu ⟨hv, lt_succ_self u⟩
    rw [hpte, update_of_ne hne, ha.old u fun hc =>
      hu ⟨hc.1, lt_succ_of_lt (mul_lt_mul_page.1 hc.2)⟩]
  · rw [mul_lt_mul_page] at hu'
    by_cases hne : u = v
    · rw [hne, hpte, update_self]
      exact ⟨n, ha.built.sub n hn, rfl, hzero⟩
    · rw [hpte, update_of_ne hne]
      exact ha.still h hram hlim hbuilt hu (mul_lt_mul_page.2 (by omega))

/-- A page below `v` is below the size that `v` is the last page of. -/
theorem page_lt_of_lt {sz : ℕ} (hu : u < v) (hv : v * PGSIZE < sz + PGSIZE) : u * PGSIZE < sz := by
  have hle := mul_le_mul_right PGSIZE (succ_le_of_lt hu)
  rw [succ_mul] at hle
  omega

/-- The pages up to the last one are the pages up to the size. -/
theorem Allocated.round {s' : Phys} {l' : List ℕ} (h : Allocated s s' l l' d oldsz (v * PGSIZE))
    (hv : newsz ≤ v * PGSIZE) (hv' : v * PGSIZE < newsz + PGSIZE ∨ v * PGSIZE < oldsz + PGSIZE) :
    Allocated s s' l l' d oldsz newsz := by
  refine ⟨h.built, h.high, fun u hu => h.old u fun hc => hu ⟨hc.1, ?_⟩,
    fun u hu hu' => h.new u hu (by omega)⟩
  have hlt := mul_lt_mul_page.1 hc.2
  rcases hv' with hv' | hv'
  · exact page_lt_of_lt hlt hv'
  · exact absurd hc.1 (not_le.2 (page_lt_of_lt hlt hv'))

/-- The entries `f` after the pages above were unmapped again. -/
def Shrunk (f g : ℕ → UInt32) : Prop :=
  ∀ u, g u = f u ∨ (present (g u) = false ∧ present (f u) = false)

/-- What a failed `allocuvm` does to the space `d`, with the free pages `l` before: it may have more
page tables. -/
structure Restored (s s' : Phys) (l : List ℕ) (d : ℕ) : Prop where
  pte : Shrunk (pte s.mem d) (pte s'.mem d)
  tab : ∀ i t, tab s.mem d i = some t → tab s'.mem d i = some t
  mem : ∀ m, m ∉ l → m ≠ d → m ∉ tables s.mem d → s'.mem m = s.mem m

theorem Restored.refl (s : Phys) (l : List ℕ) (d : ℕ) : Restored s s l d :=
  ⟨fun _ => .inl rfl, fun _ _ h => h, fun _ _ _ _ => rfl⟩

/-- What `deallocuvm` leaves of the pages that `allocuvm` mapped. -/
theorem Allocated.undo {s' s'' : Phys} {l' : List ℕ}
    (h : Allocated s s' l l' d oldsz lim) (hram : ∀ m ∈ l, m < 0xE000) (hlim : lim ≤ newsz)
    (hno : ∀ u, oldsz ≤ u * PGSIZE → u * PGSIZE < newsz → present (pte s.mem d u) = false)
    (hun : Unmapped s' s'' d oldsz newsz) : Restored s s'' l d := by
  refine ⟨fun u => ?_, fun i t ht => ?_, fun m hl hd ht => ?_⟩
  · rw [hun.pte]
    split_ifs with hin
    · exact .inr ⟨present_cleared _, hno u hin.1 hin.2⟩
    · exact .inl (h.old u fun hc => hin ⟨hc.1, lt_of_lt_of_le hc.2 hlim⟩)
  · rw [hun.tab, h.built.tab i t ht]
  · rw [hun.mem m hd (fun hm => (h.built.tables m hm).elim ht hl) fun u _ h1 h2 => ?_,
      h.built.mem m hl hd ht]
    by_cases hu : u * PGSIZE < lim
    · obtain ⟨n, hn, hpte, -⟩ := h.new u h1 hu
      have hlt := hram n hn
      rw [hpte, target_mkPte (by omega) perm_lt]
      intro heq
      cases heq
      exact hl hn
    · rw [h.old u fun hc => hu hc.2, target_eq_none.2 (hno u h1 h2)]
      exact nofun

/-- A page that was free may be freed again. -/
theorem Restored.freed {s' : Phys} {l' : List ℕ} (h : Restored s s' l d)
    (hown : Own L A s₀ s' l' {d} (n ::ₘ H)) (hn : n ∈ l) : Restored s (s'.freed n) l d := by
  obtain ⟨htab, hpte⟩ := hown.setHeld_view (mem_cons_self n H)
    (Multiset.mem_singleton_self d) (Buf.putU32 (fun _ => 1) 0 s'.freelist)
  refine ⟨?_, fun i t ht => ?_, fun m hl hd ht => ?_⟩
  · rw [show Vm.pte (s'.freed n).mem d = _ from hpte]
    exact h.pte
  · rw [show Vm.tab (s'.freed n).mem d = _ from htab, h.tab i t ht]
  · rw [Phys.freed_mem_of_ne (by rintro rfl; exact hl hn), h.mem m hl hd ht]

/-- The mapped pages while `allocuvm` runs, if there were none behind the old size. -/
theorem Allocated.le_of_present {s' : Phys} {l' : List ℕ}
    (h : Allocated s s' l l' d oldsz lim) (hlim : lim ≤ newsz) (hle : oldsz ≤ newsz)
    (hf : ∀ u < USERPAGES, oldsz ≤ u * PGSIZE → present (pte s.mem d u) = false)
    (hu : u < USERPAGES) (hp : present (pte s'.mem d u) = true) : u ≤ newsz / PGSIZE := by
  refine (le_div_iff_mul_le (by decide)).2 ?_
  by_cases hin : oldsz ≤ u * PGSIZE ∧ u * PGSIZE < lim
  · exact (hin.2.trans_le hlim).le
  · rw [h.old u hin] at hp
    by_contra hge
    rw [hf u hu (by omega)] at hp
    cases hp

/-- **The loop of `allocuvm`**, begun in the state `s1`. -/
theorem wp_allocLoop {Q : ℕ → Phys → Prop}
    (hnew : newsz < KERNBASE) (hle : oldsz ≤ newsz) (hram : ∀ m ∈ l1, m < 0xE000)
    (hno : ∀ u, oldsz ≤ u * PGSIZE → u * PGSIZE < newsz → present (pte s1.mem d u) = false)
    (hfail : ∀ l' s', Own L A s₀ s' l' {d} H → Restored s1 s' l1 d →
      ((∀ u < USERPAGES, oldsz ≤ u * PGSIZE → present (pte s1.mem d u) = false) →
        Tight s₀ A H newsz) → Q 0 s')
    (hok : ∀ l' s', Own L A s₀ s' l' {d} H → Allocated s1 s' l1 l' d oldsz newsz → Q newsz s') :
    ∀ (m : ℕ) {v : ℕ} {s : Phys} {l : List ℕ}, newsz - v * PGSIZE ≤ m → Own L A s₀ s l {d} H →
    oldsz ≤ v * PGSIZE → v * PGSIZE < newsz + PGSIZE ∨ v * PGSIZE < oldsz + PGSIZE →
    Allocated s1 s l1 l d oldsz (v * PGSIZE) →
    wp (allocLoop L d oldsz newsz (v * PGSIZE)) E Q s := by
  intro m
  induction m using Nat.strongRecOn with
  | ind m ih =>
    intro v s l hm h hv hvn ha
    rw [allocLoop]
    by_cases hlt : v * PGSIZE < newsz
    · have hvu : v < USERPAGES := user_of_lt hnew.le hlt
      have hvk : v * PGSIZE ≤ KERNBASE := (hlt.trans hnew).le
      have hnov : present (pte s.mem d v) = false := by
        rw [ha.old v fun hc => lt_irrefl _ hc.2]
        exact hno v hv hlt
      rw [if_pos hlt, wp_bind]
      refine wp_kalloc h (fun s' hmem hown hshort => ?_) fun n l' s' hl hmem hown => ?_
      · have ha' := ha.keep h hram hvk (.of_mem hmem) (fun i _ => by rw [hmem]) (by rw [hmem])
        rw [wp_bind]
        refine wp_deallocuvm hnew.le hown fun l'' s'' hown'' hun => ?_
        rw [wp_pure]
        refine hfail l'' s'' hown'' (ha'.undo hram hlt.le hno hun) fun hf => ?_
        refine (tight_of_short hown (fun u hu hp => ha'.le_of_present hlt.le hle hf hu hp)
          hshort).imp id fun hcard => ?_
        omega
      · have hnH : n ∈ n ::ₘ H := mem_cons_self n H
        have hnl : n ∈ l := by
          rw [hl]
          exact mem_cons_self
        have hzero := hown.setHeld hnH (fun _ => 0)
        have htake := Built.take hl hmem hown (fun _ => 0)
        obtain ⟨hvtab, hview⟩ := hown.setHeld_view hnH (Multiset.mem_singleton_self d) (fun _ => 0)
        rw [hmem] at hvtab hview
        rw [wp_bind, wp_memset, wp_bind]
        refine wp_mappages_user hzero hvu (by decide) (by rw [hmem, hview, hnov])
          (fun s'' hmem'' hown'' hshort => ?_) fun l'' s'' hown'' hbuilt hhigh hpte => ?_
        · have ha'' := ha.keep h hram hvk (htake.trans (.of_mem hmem''))
            (fun i _ => by rw [hmem'', hmem, hvtab]) (by rw [hmem'', hmem, hview])
          have htight := fun hf => tight_of_short hown''
            (fun u hu hp => ha''.le_of_present hlt.le hle hf hu hp) hshort
          rw [if_pos (by decide), wp_bind]
          refine wp_deallocuvm hnew.le hown'' fun l3 s3 hown3 hun => ?_
          rw [wp_bind]
          refine wp_kfree hown3 fun hown4 => ?_
          rw [wp_pure]
          refine hfail _ _ hown4 ?_ fun hf => (htight hf).imp id fun hcard => ?_
          · exact (ha''.undo hram hlt.le hno hun).freed hown3 (ha.built.sub n hnl)
          · rw [card_cons] at hcard
            omega
        · obtain ⟨-, hnl', hnp⟩ := hzero.disjoint
          have hnp := hnp n hnH d (Multiset.mem_singleton_self d)
          have hzn : s''.mem n = fun _ => 0 := by
            rw [hbuilt.mem n (hnl' n hnH) (fun he => hnp (by rw [he]; exact mem_cons_self d _))
              fun ht => hnp (mem_cons_of_mem (mem_add.2 (.inl ht)))]
            exact update_self ..
          rw [if_neg (by decide), ← succ_mul]
          refine ih _ (lt_of_lt_of_le (succ_page_lt hlt) hm) (le_refl _) hown'' ?_ ?_ ?_
          · exact hv.trans (mul_le_mul_right _ (le_succ v))
          · rw [succ_mul]
            exact .inl (Nat.add_lt_add_right hlt _)
          · exact ha.step h hram hv hvk hnl (htake.trans hbuilt)
              (fun i hi => by rw [hhigh i hi, hmem, hvtab]) (by rw [hpte, hmem, hview]) hzn
    · rw [if_neg hlt, wp_pure]
      exact hok l s h (ha.round (Nat.le_of_not_lt hlt) hvn)

/-- **`allocuvm`** maps zeroed pages from `oldsz` up to `newsz`, or fails and leaves nothing mapped
there. -/
theorem wp_allocuvm {Q : ℕ → Phys → Prop} (h : Own L A s₀ s l {d} H)
    (hno : newsz < KERNBASE → ∀ u, oldsz ≤ u * PGSIZE → u * PGSIZE < newsz →
      present (pte s.mem d u) = false)
    (hfail : ∀ l' s', Own L A s₀ s' l' {d} H → Restored s s' l d →
      ((∀ u < USERPAGES, oldsz ≤ u * PGSIZE → present (pte s.mem d u) = false) →
        newsz < KERNBASE → Tight s₀ A H newsz) → Q 0 s')
    (hok : newsz < KERNBASE → ∀ l' s', Own L A s₀ s' l' {d} H →
      Allocated s s' l l' d oldsz newsz → Q (max oldsz newsz) s') :
    wp (allocuvm L d oldsz newsz) E Q s := by
  rw [allocuvm]
  split_ifs with hk hlt
  · rw [wp_pure]
    exact hfail l s h (.refl s l d) fun _ hk' => absurd hk (not_le.2 hk')
  · rw [wp_pure, ← max_eq_left hlt.le]
    exact hok (Nat.lt_of_not_le hk) l s h (.nil s l d fun u hu => Nat.not_lt.2 (hlt.le.trans hu))
  · have hle : oldsz ≤ newsz := Nat.le_of_not_lt hlt
    have hnew := Nat.lt_of_not_le hk
    rw [max_eq_right hle] at hok
    rw [PGROUNDUP]
    set v := (oldsz + (PGSIZE - 1)) / PGSIZE
    have hv : oldsz ≤ v * PGSIZE := (roundUp_le_iff oldsz v).1 (le_refl v)
    have hv' : v * PGSIZE < oldsz + PGSIZE := roundUp_lt oldsz
    refine wp_allocLoop hnew hle (fun m hm => (h.ram m (h.mem_of_free hm)).lt) (hno hnew)
      (fun l' s' hown hr ht => hfail l' s' hown hr fun hf _ => ht hf)
      (hok hnew) _ (le_refl _) h hv (.inr hv') (.nil s l d fun u hu hu' => ?_)
    exact absurd hu (not_le.2 (page_lt_of_lt (mul_lt_mul_page.1 hu') hv'))

/-! ## Stores to mapped pages -/

/-- **`clearpteu`.** -/
theorem wp_clearpteu {Q : Unit → Phys → Prop} (h : Own L A s₀ s l {d} H)
    (hp : present (pte s.mem d v) = true)
    (hQ : ∀ s', Own L A s₀ s' l {d} H → tab s'.mem d = tab s.mem d →
      pte s'.mem d = update (pte s.mem d) v (clearU (pte s.mem d v)) →
      (∀ m, m ∉ tables s.mem d → s'.mem m = s.mem m) → Q () s') :
    wp (clearpteu d (v * PGSIZE)) E Q s := by
  obtain ⟨t, ht⟩ := tab_of_present hp
  have hj : v % NPDENTRIES < NPDENTRIES := mod_lt v (by decide)
  rw [clearpteu, wp_bind, wp_walkpgdir_false, pdx_mul, ptx_mul, ht]
  simp only [map_some]
  rw [wp_bind, wp_getWord, wp_putWord, word_of_tab ht]
  obtain ⟨htab, hview⟩ := h.put_view ht hj (clearU (pte s.mem d v))
  rw [vpn_eq] at hview
  refine hQ _ (h.remap ht hj fun _ => ?_) htab hview fun m hm => update_of_ne ?_ _ _
  · rw [vpn_eq, target_clearU]
  · rintro rfl
    exact hm (mem_tables (tab_lt ht) ht)

/-- `readi` of all the bytes asked for, with no wrap-around. -/
theorem File.lt_of_readi {ip : File} {off n : ℕ} (hoff : off < 2 ^ 32) (hn : n < 2 ^ 32)
    (h : ip.readi off n = n) : off + n < 2 ^ 32 := by
  unfold File.readi at h
  split_ifs at h <;> omega

/-- **The loop of `loaduvm`** stores the bytes of the file to the pages of the segment, from page
`k` on. -/
theorem wp_loadLoop (ip : File) {offset sz : ℕ} (hlim : lim ≤ KERNBASE)
    (hsz : v * PGSIZE + sz ≤ lim) {f : ℕ → UInt32} {T : ℕ → Option ℕ}
    (hf : ∀ u, u * PGSIZE < lim → present (f u) = true) :
    ∀ (m : ℕ) {k : ℕ} {s : Phys}, sz - k * PGSIZE ≤ m →
    (k * PGSIZE < sz → offset + k * PGSIZE < 2 ^ 32) → Own L A s₀ s l {d} H → pte s.mem d = f →
    tab s.mem d = T →
    (∀ r s', Own L A s₀ s' l {d} H → pte s'.mem d = f → tab s'.mem d = T →
      (r = -1 ∨ r = 0 ∧ Stored s s' d (v * PGSIZE + k * PGSIZE) (v * PGSIZE + sz)
        fun a => ip.data (offset + (a - v * PGSIZE))) → Q r s') →
    wp (loadLoop d (v * PGSIZE) ip offset sz (k * PGSIZE)) E Q s := by
  intro m
  induction m using Nat.strongRecOn with
  | ind m ih =>
    intro k s hm hwrap h hpte htab hQ
    rw [loadLoop]
    by_cases hlt : k * PGSIZE < sz
    · have hwrap := hwrap hlt
      have haddr : (v * PGSIZE + k * PGSIZE) % 2 ^ 32 = (v + k) * PGSIZE := by
        rw [← add_mul]
        refine mod_eq_of_lt ?_
        rw [add_mul]
        simp only [KERNBASE] at hlim
        omega
      have hin : (v + k) * PGSIZE < lim := by
        rw [add_mul]
        omega
      have hp : present (pte s.mem d (v + k)) = true := by
        rw [hpte]
        exact hf _ hin
      obtain ⟨t, ht⟩ := tab_of_present hp
      rw [if_pos hlt, haddr, wp_bind, wp_walkpgdir_false, pdx_mul, ptx_mul, ht, mod_eq_of_lt hwrap]
      simp only [map_some]
      rw [wp_bind, wp_getWord, word_of_tab ht, wp_bind, wp_get, wp_bind, wp_setPage]
      set n := if sz - k * PGSIZE < PGSIZE then sz - k * PGSIZE else PGSIZE with hn
      set r := ip.readi (offset + k * PGSIZE) n with hr
      have htarget : target (pte s.mem d (v + k)) = some (ppn (pte s.mem d (v + k))) :=
        target_eq_some.2 ⟨hp, rfl⟩
      have hvu := user_of_lt hlim hin
      obtain ⟨hown, hview', hview⟩ := h.setUser hvu htarget
        ((s.mem (ppn (pte s.mem d (v + k)))).overlay 0 r.toNat
          fun j => ip.data (offset + k * PGSIZE + j))
      rw [wp_ite]
      refine ⟨fun _ => ?_, fun hrn => ?_⟩
      · rw [wp_pure]
        exact hQ _ _ hown (hview.trans hpte) (hview'.trans htab) (.inl rfl)
      · have hrn : r = n := not_not.1 hrn
        have hnP : n ≤ PGSIZE := by
          rw [hn]
          split_ifs <;> omega
        have hoff := File.lt_of_readi hwrap (hnP.trans_lt (by decide)) hrn
        rw [hrn, Int.toNat_natCast] at hown hview hview' ⊢
        rw [← succ_mul]
        refine ih _ (lt_of_lt_of_le (succ_page_lt hlt) hm) (le_refl _) (fun hmore => ?_) hown
          (hview.trans hpte) (hview'.trans htab) fun r' s' hown' hpte' htab' hst => ?_
        · rw [succ_mul] at hmore ⊢
          rw [hn, if_neg (by omega)] at hoff
          omega
        · refine hQ r' s' hown' hpte' htab' (hst.imp_right fun hst => ⟨hst.1, ?_⟩)
          have hfirst := h.stored hvu htarget (show 0 + n ≤ PGSIZE by omega)
            (p := fun j => ip.data (offset + k * PGSIZE + j))
            (g := fun a => ip.data (offset + (a - v * PGSIZE))) fun j _ => by
              congr 1
              rw [add_mul]
              omega
          rw [add_zero, add_mul] at hfirst
          refine hfirst.append hst.2 fun a => ?_
          rw [succ_mul, hn]
          split_ifs <;> omega
    · rw [if_neg hlt, wp_pure]
      exact hQ _ _ h hpte htab (.inr ⟨rfl, .nil (by omega)⟩)

/-- **`loaduvm`** into mapped pages. -/
theorem wp_loaduvm {ip : File} {addr offset sz : ℕ}
    (h : Own L A s₀ s l {d} H) (haddr : addr % PGSIZE = 0) (hoff : offset < 2 ^ 32)
    (hlim : lim ≤ KERNBASE)
    (hsz : addr + sz ≤ lim) (hf : ∀ u, u * PGSIZE < lim → present (pte s.mem d u) = true)
    (hQ : ∀ r s', Own L A s₀ s' l {d} H → pte s'.mem d = pte s.mem d →
      tab s'.mem d = tab s.mem d →
      (r = -1 ∨ r = 0 ∧ Stored s s' d addr (addr + sz)
        fun a => ip.data (offset + (a - addr))) → Q r s') :
    wp (loaduvm d addr ip offset sz) E Q s := by
  have hv : addr = addr / PGSIZE * PGSIZE :=
    (Nat.div_mul_cancel (Nat.dvd_of_mod_eq_zero haddr)).symm
  rw [loaduvm, if_neg (by simp [haddr])]
  rw [hv] at hsz hQ ⊢
  have hloop := wp_loadLoop (E := E) (Q := Q) ip hlim hsz hf (sz - 0 * PGSIZE)
    (k := 0) (le_refl _) (fun _ => by simpa only [zero_mul, add_zero] using hoff) h rfl rfl
    (by simpa only [zero_mul, add_zero] using hQ)
  rwa [zero_mul] at hloop

/-- Looking up a page that has a page table. -/
theorem wp_checked {Q : Option ℕ → Phys → Prop} (ht : tab s.mem d (v / NPDENTRIES) = some t) :
    wp (checked d (v * PGSIZE)) E Q s ↔
      Q (if present (pte s.mem d v) = true ∧ user (pte s.mem d v) = true
        then some (ppn (pte s.mem d v)) else none) s := by
  rw [checked, wp_bind, wp_walkpgdir_false, pdx_mul, ptx_mul, ht]
  simp only [map_some]
  rw [wp_bind, wp_getWord, word_of_tab ht, wp_pure]
  cases present (pte s.mem d v) <;> cases user (pte s.mem d v) <;> simp

/-- `copyout` of `n` bytes to the address `va` comes to page `u`. -/
def Touches (va n u : ℕ) : Prop := ∃ a, va ≤ a ∧ a < va + n ∧ a / PGSIZE = u

/-- **`copyout`** to addresses below the size of the space: it stores all bytes, or comes to a page
without the user bit. -/
theorem wp_copyout (hlim : lim ≤ KERNBASE) {f : ℕ → UInt32}
    {T : ℕ → Option ℕ} (hf : ∀ u, u * PGSIZE < lim → present (f u) = true) :
    ∀ (m : ℕ) {va : ℕ} {buf : List UInt8} {s : Phys}, buf.length ≤ m →
    (0 < buf.length → va + buf.length ≤ lim) → Own L A s₀ s l {d} H → pte s.mem d = f →
    tab s.mem d = T →
    (∀ r s', Own L A s₀ s' l {d} H → pte s'.mem d = f → tab s'.mem d = T →
      Wrote f (fun u => Touches va buf.length u ∧ user (f u) = true) s s' →
      (r = 0 ∧ (∀ u, Touches va buf.length u → user (f u) = true) ∧
          Stored s s' d va (va + buf.length) (fun a => buf.getD (a - va) 0) ∨
        r = -1 ∧ ∃ u, Touches va buf.length u ∧ user (f u) = false) → Q r s') →
    wp (copyoutWith (checked d) va buf) E Q s := by
  intro m
  induction m using Nat.strongRecOn with
  | ind m ih =>
    intro va buf s hm hva h hpte htab hQ
    rw [copyoutWith]
    by_cases hlen : buf.length > 0
    · have hva := hva hlen
      have hle := div_mul_le_self va PGSIZE
      have hoff := lt_div_mul_add (a := va) (show 0 < PGSIZE by decide)
      have hin : va / PGSIZE * PGSIZE < lim := by omega
      have hp : present (pte s.mem d (va / PGSIZE)) = true := by
        rw [hpte]
        exact hf _ hin
      have hfirst : Touches va buf.length (va / PGSIZE) := ⟨va, le_refl va, by omega, rfl⟩
      obtain ⟨t, ht⟩ := tab_of_present hp
      rw [if_pos hlen, PGROUNDDOWN, wp_bind, wp_checked ht]
      split_ifs with hu
      · dsimp only
        rw [wp_bind, wp_get, wp_bind, wp_setPage]
        have hvu := user_of_lt hlim hin
        have htarget := target_eq_some.2 ⟨hp, rfl⟩
        have huser : user (f (va / PGSIZE)) = true := by
          rw [← hpte]
          exact hu.2
        set v := va / PGSIZE with hv
        set n := min (PGSIZE - (va - v * PGSIZE)) buf.length with hn
        obtain ⟨hown, hview', hview⟩ := h.setUser hvu htarget
          ((s.mem (ppn (pte s.mem d v))).overlay (va - v * PGSIZE) n fun k => buf.getD k 0)
        have hst := h.stored hvu htarget (g := fun a => buf.getD (a - va) 0)
          (p := fun k => buf.getD k 0) (show va - v * PGSIZE + n ≤ PGSIZE by omega) fun k _ => by
            congr 1
            omega
        rw [show v * PGSIZE + (va - v * PGSIZE) = va by omega] at hst
        -- the bytes behind this page are those of the next round
        have hsplit : ∀ a, v * PGSIZE + PGSIZE ≤ a → (a < va + buf.length ↔
            a < v * PGSIZE + PGSIZE + (buf.drop n).length) := by
          intro a ha
          rw [length_drop]
          omega
        have hwrap : (v * PGSIZE + PGSIZE) % 2 ^ 32 = v * PGSIZE + PGSIZE := by
          simp only [USERPAGES, PGSIZE] at hvu ⊢
          omega
        rw [hwrap]
        refine ih _ ?_ (le_refl _) (fun hmore => ?_) hown (hview.trans hpte) (hview'.trans htab)
          fun r s' hown' hpte' htab' hwrote hres => hQ r s' hown' hpte' htab' ?_ ?_
        · rw [length_drop]
          omega
        · rw [length_drop] at hmore ⊢
          omega
        · refine Wrote.trans (fun m hm => update_of_ne ?_ _ _) (hwrote.mono fun u hu => ?_)
          · rintro rfl
            exact hm v ⟨hfirst, huser⟩ (by rw [← hpte]; exact htarget)
          · obtain ⟨⟨a, h1, h2, h3⟩, hua⟩ := hu
            exact ⟨⟨a, by omega, (hsplit a h1).2 h2, h3⟩, hua⟩
        · rcases hres with ⟨rfl, hall, hrest⟩ | ⟨rfl, u, ⟨a, h1, h2, h3⟩, hno⟩
          · refine .inl
              ⟨rfl, fun u hu => ?_, hst.append (hrest.congr fun a h1 h2 => ?_) fun a => ?_⟩
            · obtain ⟨a, h1, h2, h3⟩ := hu
              by_cases huv : u = v
              · rw [huv, huser]
              · have hge : v * PGSIZE + PGSIZE ≤ a := by
                  have hle' := Nat.div_le_div_right (c := PGSIZE) h1
                  have := mul_le_mul_right PGSIZE (show v + 1 ≤ u by omega)
                  rw [succ_mul] at this
                  have := div_mul_le_self a PGSIZE
                  rw [h3] at this
                  omega
                exact hall u ⟨a, hge, (hsplit a hge).1 h2, h3⟩
            · rw [length_drop] at h2
              simp only [getD_eq_getElem?_getD, getElem?_drop]
              rw [show n + (a - (v * PGSIZE + PGSIZE)) = a - va by omega]
            · rw [length_drop]
              omega
          · exact .inr ⟨rfl, u, ⟨a, by omega, (hsplit a h1).2 h2, h3⟩, hno⟩
      · dsimp only
        rw [wp_pure]
        refine hQ _ _ h hpte htab (.refl s) (.inr ⟨rfl, _, hfirst, ?_⟩)
        rw [← hpte]
        exact Bool.eq_false_iff.2 fun hc => hu ⟨hp, hc⟩
    · rw [if_neg hlen, wp_pure]
      refine hQ _ _ h hpte htab (.refl s) (.inl ⟨rfl, ?_, .nil (by omega)⟩)
      rintro u ⟨a, h1, h2, -⟩
      omega

/-- `copyout` to the kernel's addresses fails: they have no user bit. -/
theorem wp_copyout_kern {buf : List UInt8} (hp : present (pte s.mem d (va / PGSIZE)) = true)
    (hu : user (pte s.mem d (va / PGSIZE)) = false) (hbuf : 0 < buf.length) (hQ : Q (-1) s) :
    wp (copyoutWith (checked d) va buf) E Q s := by
  obtain ⟨t, ht⟩ := tab_of_present hp
  rw [copyoutWith, if_pos hbuf, PGROUNDDOWN, wp_bind, wp_checked ht, if_neg (by simp [hu])]
  dsimp only
  rwa [wp_pure]

/-! ## copyuvm -/

/-- The kernel's part of a space depends on the entries above `KERNBASE` only. -/
theorem Kern.congr {mem mem' : ℕ → Page} {d' : ℕ} (h : Kern mem d)
    (heq : ∀ u, USERPAGES ≤ u → pte mem' d' u = pte mem d u) : Kern mem' d' := by
  refine ⟨fun u hu hp => ?_, fun u hu hu' => ?_⟩
  · rw [heq u hu] at hp ⊢
    exact h.user u hu hp
  · rw [heq u (le_trans (by decide) hu)]
    exact h.dev u hu hu'

/-! ## fork -/

variable {s' : Phys} {l' : List ℕ} {pgdir sz : ℕ}

/-- The pages below `v` of the space `d` are copies of those of the space `pgdir` in the state `s`,
and no others are mapped. -/
structure Copies (s s' : Phys) (pgdir d v : ℕ) : Prop where
  done : ∀ u < v, present (pte s'.mem d u) = true ∧
    flags (pte s'.mem d u) = flags (pte s.mem pgdir u) ∧
    s'.mem (ppn (pte s'.mem d u)) = s.mem (ppn (pte s.mem pgdir u))
  rest : ∀ u < USERPAGES, v ≤ u → present (pte s'.mem d u) = false

/-- What is not free stays as it is. -/
theorem Own.parent (h : Own L l s s' l' {d} 0) (hpar : ∀ n ∈ pages s.mem pgdir, n ∉ l) :
    pages s'.mem pgdir = pages s.mem pgdir ∧ pte s'.mem pgdir = pte s.mem pgdir := by
  have hsame := pages_congr fun n hn => h.keeps n fun hl => hpar n hn (mem_coe.1 hl)
  exact ⟨hsame.1, hsame.2.2⟩

/-- The page that a user address of the parent is mapped to is not free. -/
theorem ppn_not_free (hpar : ∀ n ∈ pages s.mem pgdir, n ∉ l) (hv : v < USERPAGES)
    (hp : present (pte s.mem pgdir v) = true) : ppn (pte s.mem pgdir v) ∉ l :=
  hpar _ (mem_cons_of_mem (mem_add.2 (.inr
    (mem_picks.2 ⟨v, hv, target_eq_some.2 ⟨hp, rfl⟩⟩))))

/-- One page more. -/
theorem Copies.step {s2 : Phys} {l2 : List ℕ} {H : Multiset ℕ} (hc : Copies s s1 pgdir d v)
    (h : Own L l s s1 l1 {d} H) (hv : v < USERPAGES) (hbuilt : Built s1 s2 l1 l2 d)
    (hn : n < 2 ^ 20) (hp : present (pte s.mem pgdir v) = true)
    (hpte : pte s2.mem d = update (pte s1.mem d) v
      (mkPte (n * PGSIZE) (flags (pte s.mem pgdir v))))
    (hmem : s2.mem n = s.mem (ppn (pte s.mem pgdir v))) : Copies s s2 pgdir d (v + 1) where
  done u hu := by
    rw [hpte]
    by_cases huv : u = v
    · subst huv
      rw [update_self, ppn_mkPte hn (flags_lt _)]
      exact ⟨present_mkPte hn (flags_lt _), flags_mkPte hn hp, hmem⟩
    · rw [update_of_ne huv]
      obtain ⟨hpu, hfu, hcu⟩ := hc.done u (by omega)
      -- the frame is the child's, so `mappages` does not touch it
      obtain ⟨hmp, hmd, hmt⟩ := h.target_mem (show u < USERPAGES by omega)
        (target_eq_some.2 ⟨hpu, rfl⟩)
      refine ⟨hpu, hfu, ?_⟩
      rw [hbuilt.mem _ (fun hml => h.disjoint.1 _ hml d (Multiset.mem_singleton_self d) hmp) hmd
        hmt, hcu]
  rest u hu hge := by
    rw [hpte, update_of_ne (by omega)]
    exact hc.rest u hu (by omega)

/-- **The loop of `copyuvm`** copies the rest of the pages, or frees the child's space. It panics
only where the parent has no page. -/
theorem wp_copyLoop {Q : Option ℕ → Phys → Prop} (hpar : ∀ n ∈ pages s.mem pgdir, n ∉ l)
    (hsz : sz ≤ KERNBASE)
    (hE : ∀ u, u * PGSIZE < sz → present (pte s.mem pgdir u) = false → ∀ e, E e)
    (hnone : ∀ l' s', Own L l s s' l' 0 0 → Q none s')
    (hsome : ∀ l' s' v, Own L l s s' l' {d} 0 → Kern s'.mem d → Copies s s' pgdir d v →
      (∀ u, u * PGSIZE < sz ↔ u < v) → Q (some d) s') :
    ∀ (m : ℕ) {v : ℕ} {s1 : Phys} {l1 : List ℕ}, sz - v * PGSIZE ≤ m → Own L l s s1 l1 {d} 0 →
    Kern s1.mem d → v * PGSIZE < sz + PGSIZE → Copies s s1 pgdir d v →
    wp (copyLoop L pgdir sz d (v * PGSIZE)) E Q s1 := by
  intro m
  induction m using Nat.strongRecOn with
  | ind m ih =>
    intro v s1 l1 hm h hk hv hc
    rw [copyLoop]
    by_cases hlt : v * PGSIZE < sz
    · have hvu : v < USERPAGES := user_of_lt hsz hlt
      have hsame := (h.parent hpar).2
      rw [if_pos hlt, wp_bind, wp_walkpgdir_false, pdx_mul, ptx_mul]
      obtain ht | ⟨t, ht⟩ := eq_none_or_eq_some (tab s1.mem pgdir (v / NPDENTRIES))
      · rw [ht]
        refine wp_panic.2 (hE v hlt (Bool.eq_false_iff.2 fun hp => ?_) _)
        obtain ⟨t, ht'⟩ := tab_of_present (s := s1) (by rw [hsame]; exact hp)
        simp [ht] at ht'
      rw [ht]
      simp only [map_some]
      rw [wp_bind, wp_getWord, word_of_tab ht, hsame]
      refine wp_ite.2 ⟨fun hno => wp_panic.2 (hE v hlt (by simpa using hno) _), fun hno => ?_⟩
      have hp : present (pte s.mem pgdir v) = true := by simpa using hno
      rw [wp_bind]
      refine wp_kalloc h (fun s' _ hown _ => ?_) fun n l2 s2 hl hmem hown => ?_
      · rw [wp_bind]
        refine wp_freevm hown fun l'' s'' hown'' => ?_
        rw [wp_pure]
        exact hnone l'' s'' hown''
      · have hnH : n ∈ n ::ₘ 0 := mem_cons_self n 0
        have hn : n < 0xE000 := hown.ram_held.lt
        have hpage : s2.mem (ppn (pte s.mem pgdir v)) = s.mem (ppn (pte s.mem pgdir v)) := by
          rw [hmem]
          exact h.keeps _ fun hl => ppn_not_free hpar hvu hp (mem_coe.1 hl)
        rw [wp_bind, wp_get, wp_bind, wp_setPage, wp_bind, hpage]
        have hset := hown.setHeld hnH (s.mem (ppn (pte s.mem pgdir v)))
        have htake := Built.take hl hmem hown (s.mem (ppn (pte s.mem pgdir v)))
        have hview := (hown.setHeld_view hnH (Multiset.mem_singleton_self d)
          (s.mem (ppn (pte s.mem pgdir v)))).2
        rw [hmem] at hview
        refine wp_mappages_user hset hvu (flags_lt _) ?_ (fun s3 _ hown3 _ => ?_)
          fun l3 s3 hown3 hbuilt _ hpte => ?_
        · rw [hmem, hview]
          exact hc.rest v hvu (le_refl v)
        · rw [if_pos (by decide), wp_bind]
          refine wp_kfree hown3 fun hown4 => ?_
          rw [wp_bind]
          refine wp_freevm hown4 fun l5 s5 hown5 => ?_
          rw [wp_pure]
          exact hnone l5 s5 hown5
        · rw [hmem, hview] at hpte
          have hkeep : s3.mem n = s.mem (ppn (pte s.mem pgdir v)) := by
            obtain ⟨-, hnl, hnp⟩ := hset.disjoint
            have hnp := hnp n hnH d (Multiset.mem_singleton_self d)
            rw [hbuilt.mem n (hnl n hnH) (fun he => hnp (by rw [he]; exact mem_cons_self d _))
              fun ht => hnp (mem_cons_of_mem (mem_add.2 (.inl ht)))]
            exact update_self ..
          rw [if_neg (by decide), ← succ_mul]
          refine ih _ (lt_of_lt_of_le (succ_page_lt hlt) hm) (le_refl _) hown3 ?_ ?_ ?_
          · refine hk.congr fun u hu => ?_
            rw [hpte, update_of_ne (by omega)]
          · rw [succ_mul]
            exact Nat.add_lt_add_right hlt _
          · exact hc.step h hvu (htake.trans hbuilt) (by omega) hp hpte hkeep
    · rw [if_neg hlt, wp_pure]
      refine hsome l1 s1 v h hk hc fun u => ⟨fun hu => ?_, fun hu => page_lt_of_lt hu hv⟩
      exact mul_lt_mul_page.1 (by omega)

/-- **`copyuvm`** makes a copy of the parent's pages, or takes no page. -/
theorem wp_copyuvm {Q : Option ℕ → Phys → Prop} (h : Own L l s s l 0 0)
    (hpar : ∀ n ∈ pages s.mem pgdir, n ∉ l) (hsz : sz ≤ KERNBASE)
    (hE : ∀ u, u * PGSIZE < sz → present (pte s.mem pgdir u) = false → ∀ e, E e)
    (hnone : ∀ l' s', Own L l s s' l' 0 0 → Q none s')
    (hsome : ∀ d l' s' v, Own L l s s' l' {d} 0 → Kern s'.mem d → Copies s s' pgdir d v →
      (∀ u, u * PGSIZE < sz ↔ u < v) → Q (some d) s') :
    wp (copyuvm L pgdir sz) E Q s := by
  rw [copyuvm, wp_bind]
  refine wp_setupkvm h (fun l' s' hown _ => ?_) fun d l' s' hown hk hpte _ _ => ?_
  · rw [wp_pure]
    exact hnone l' s' hown
  · have hloop := wp_copyLoop hpar hsz hE hnone (hsome d) (sz - 0 * PGSIZE) (v := 0)
      (le_refl _) hown hk (by rw [Nat.zero_mul]; exact Nat.add_pos_right _ (by decide))
      ⟨fun u hu => absurd hu (not_lt_zero u), fun u hu _ => by rw [hpte u hu]; rfl⟩
    rwa [zero_mul] at hloop

end Xv6.Vm
