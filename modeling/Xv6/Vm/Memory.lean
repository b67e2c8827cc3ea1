/-
# The memory of a space

What a process sees of memory: the contents of the page at each user address (`page`) and the bytes
(`byteAt`). No frame is mapped twice, so a store to the frame of one page changes that page alone
(`Own.page_setUser`); `Stored` is the effect of a number of such stores to a range of addresses.
-/
import Xv6.Vm.Mapping

namespace Xv6.Vm

open Function Lib Option

variable {L : Layout} {A D H : Multiset ℕ} {s0 s s' s'' : Phys} {l : List ℕ} {d n v : ℕ}

/-- The contents of the user page `u`, if it is mapped. -/
def page (mem : ℕ → Page) (d u : ℕ) : Option Page := (target (pte mem d u)).map mem

/-- The byte at the user address `a`, if it is mapped. -/
def byteAt (mem : ℕ → Page) (d a : ℕ) : Option UInt8 :=
  (page mem d (a / PGSIZE)).map fun b => b.byte (a % PGSIZE)

variable (h : Own L A s0 s l {d} H)

include h

/-- What is mapped stays as it is if memory outside of the tables and the free list does. -/
theorem page_eq {u : ℕ} (hu : u < USERPAGES)
    (htarget : target (pte s'.mem d u) = target (pte s.mem d u))
    (hmem : ∀ m, m ∉ l → m ≠ d → m ∉ tables s.mem d → target (pte s.mem d u) = some m →
      s'.mem m = s.mem m) : page s'.mem d u = page s.mem d u := by
  rw [page, page, htarget]
  cases ht : target (pte s.mem d u) with
  | none => rfl
  | some m =>
    obtain ⟨hmp, hmd, hmt⟩ := h.target_mem hu ht
    have hml : m ∉ l := fun hml => h.disjoint.1 m hml d (Multiset.mem_singleton_self d) hmp
    rw [map_some, map_some, hmem m hml hmd hmt ht]

/-- A store to a page that is mapped below `KERNBASE` changes no entry. -/
theorem Own.setUser (hv : v < USERPAGES) (hn : target (pte s.mem d v) = some n) (b : Page) :
    Own L A s0 { s with mem := update s.mem n b } l {d} H ∧
      tab (update s.mem n b) d = tab s.mem d ∧
      pte (update s.mem n b) d = pte s.mem d := by
  obtain ⟨hmem, hnd, hnt⟩ := h.target_mem hv hn
  have hd : update s.mem n b d = s.mem d := update_of_ne hnd.symm _ _
  have ht : ∀ t ∈ tables s.mem d, update s.mem n b t = s.mem t := by
    intro t ht
    refine update_of_ne ?_ _ _
    rintro rfl
    exact hnt ht
  obtain ⟨htab, hpte⟩ := pte_congr hd ht
  refine ⟨h.setSpace hmem b ?_, htab, hpte⟩
  rw [pages, pages, tables, users, htab, hpte]
  rfl

theorem Own.target_inj {u : ℕ} (hu : u < USERPAGES) (hv : v < USERPAGES)
    (htu : target (pte s.mem d u) = some n) (htv : target (pte s.mem d v) = some n) : u = v := by
  have hnodup := h.nodup_pages
  rw [pages, Multiset.nodup_cons, Multiset.nodup_add] at hnodup
  exact picks_inj hnodup.2.2.1 hu hv htu htv

/-- **It changes the one page only.** -/
theorem Own.page_setUser (hv : v < USERPAGES)
    (hn : target (pte s.mem d v) = some n) (b : Page) {u : ℕ} (hu : u < USERPAGES) :
    page (update s.mem n b) d u = if u = v then some b else page s.mem d u := by
  rw [page, (h.setUser hv hn b).2.2]
  split_ifs with huv
  · rw [huv, hn, map_some, update_self]
  · rw [page]
    cases ht : target (pte s.mem d u) with
    | none => rfl
    | some m =>
      have hmn : m ≠ n := by
        rintro rfl
        exact huv (h.target_inj hu hv ht hn)
      rw [map_some, map_some, update_of_ne hmn]

omit h

/-! ## Stores to a range of addresses -/

/-- The bytes at the addresses from `lo` up to `hi` are now those of `g`, and the others are as
before. -/
def Stored (s s' : Phys) (d lo hi : ℕ) (g : ℕ → UInt8) : Prop :=
  ∀ a < KERNBASE, byteAt s'.mem d a =
    if lo ≤ a ∧ a < hi then some (g a) else byteAt s.mem d a

variable {g : ℕ → UInt8} {lo hi : ℕ}

theorem Stored.nil (h : hi ≤ lo) : Stored s s d lo hi g := fun a _ => by
  rw [if_neg (by omega)]

/-- A range that consists of two. -/
theorem Stored.append {lo' hi' mid : ℕ} (h : Stored s s' d lo mid g)
    (h' : Stored s' s'' d lo' hi' g)
    (hr : ∀ a, lo ≤ a ∧ a < hi ↔ (lo ≤ a ∧ a < mid) ∨ (lo' ≤ a ∧ a < hi')) :
    Stored s s'' d lo hi g := by
  intro a ha
  rw [h' a ha, h a ha]
  by_cases hhi : lo' ≤ a ∧ a < hi'
  · rw [if_pos hhi, if_pos ((hr a).2 (.inr hhi))]
  · rw [if_neg hhi]
    exact if_congr ((hr a).trans (or_iff_left hhi)).symm rfl rfl

theorem Stored.congr {g' : ℕ → UInt8} (h : Stored s s' d lo hi g)
    (hg : ∀ a, lo ≤ a → a < hi → g a = g' a) : Stored s s' d lo hi g' := fun a ha => by
  rw [h a ha]
  split_ifs with hin
  · rw [hg a hin.1 hin.2]
  · rfl

/-- Of all memory, only frames that the entries `f` map at the pages `P` were written. -/
def Wrote (f : ℕ → UInt32) (P : ℕ → Prop) (s s' : Phys) : Prop :=
  ∀ n, (∀ u, P u → target (f u) ≠ some n) → s'.mem n = s.mem n

variable {f : ℕ → UInt32} {P P' : ℕ → Prop}

theorem Wrote.refl (s : Phys) : Wrote f P s s := fun _ _ => rfl

theorem Wrote.trans (h : Wrote f P s s') (h' : Wrote f P s' s'') : Wrote f P s s'' := fun n hn =>
  (h' n hn).trans (h n hn)

theorem Wrote.mono (h : Wrote f P s s') (hP : ∀ u, P u → P' u) : Wrote f P' s s' := fun n hn =>
  h n fun u hu => hn u (hP u hu)

theorem page_of_lt {a : ℕ} (ha : a < KERNBASE) : a / PGSIZE < USERPAGES :=
  Nat.div_lt_of_lt_mul ha

/-- **A store to a part of one page.** -/
theorem Own.stored (h : Own L A s0 s l {d} H) (hv : v < USERPAGES)
    (hn : target (pte s.mem d v) = some n) {o m : ℕ} (hm : o + m ≤ PGSIZE) {p : ℕ → UInt8}
    (hp : ∀ j < m, p j = g (v * PGSIZE + o + j)) :
    Stored s { s with mem := update s.mem n ((s.mem n).overlay o m p) } d
      (v * PGSIZE + o) (v * PGSIZE + o + m) g := by
  intro a ha
  have hdiv := Nat.div_add_mod' a PGSIZE
  have hmod := Nat.mod_lt a (show 0 < PGSIZE by decide)
  simp only [byteAt]
  rw [h.page_setUser hv hn _ (page_of_lt ha)]
  by_cases hav : a / PGSIZE = v
  · subst hav
    rw [if_pos rfl, map_some, page, hn, map_some, map_some]
    split_ifs with hin
    · rw [Buf.byte_overlay_of_mem (by omega) (by omega) hmod, hp _ (by omega),
        show a / PGSIZE * PGSIZE + o + (a % PGSIZE - o) = a by omega]
    · rw [Buf.byte_overlay_of_not (by omega)]
  · rw [if_neg hav, if_neg]
    rintro ⟨hlo, hhi⟩
    refine hav (Nat.div_eq_of_lt_le (by omega) ?_)
    rw [Nat.succ_mul]
    omega

end Xv6.Vm
