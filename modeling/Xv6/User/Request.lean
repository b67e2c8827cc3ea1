/-
# Requests that malloc cannot serve

`malloc` of `umalloc.c` rounds the request up to units of a header and `morecore` multiplies the
units by the size of a header, both in 32 bits; `sbrk` then reads the product as an `int`.

For the last seven 32-bit numbers the rounding wraps around, and one unit is asked for: the header
alone. From `2^31 - 15` on the product is negative as an `int`, or 0 for the last request before
those seven, and no free block is that large: `morecore` calls `sbrk` with it. `malloc_enough_iff`
says that the other requests are served in full, whatever the state of the free list.
-/
import Xv6.User.Heap

namespace Xv6.Umalloc

open Lib List

/-- The number of bytes that `morecore(nu)` asks `sbrk` for. -/
def asked (nu : ℕ) : ℕ := (if nu < 4096 then 4096 else nu) * sizeofHeader % 2 ^ 32

/-- A 32-bit number as an `int`. -/
def asInt (n : ℕ) : ℤ := if n < 2 ^ 31 then n else n - 2 ^ 32

/-- The numbers that `sbrk` is called with while the loop of `malloc` runs. -/
def mallocAsks (ok : ℕ → Bool) (nunits : ℕ) : ℕ → ℕ → ℕ → Heap → List ℕ
  | 0, _, _, _ => []
  | fuel + 1, _, p, h =>
      if h.size p ≥ nunits then []
      else if p = h.freep then
        asked nunits ::
          match h.morecore fuel ok nunits with
          | none => []
          | some (p, h) => if p = 0 then [] else mallocAsks ok nunits fuel p (h.ptr p) h
      else mallocAsks ok nunits fuel p (h.ptr p) h

/-- The numbers that `sbrk` is called with in `malloc(nbytes)`. -/
def Heap.asks (h : Heap) (base fuel : ℕ) (ok : ℕ → Bool) (nbytes : ℕ) : List ℕ :=
  let h₁ := if h.freep = 0 then { (h.setPtr base base).setSize base 0 with freep := base } else h
  mallocAsks ok (units nbytes) fuel h₁.freep (h₁.ptr h₁.freep) h₁

/-- **`malloc(nbytes)` returns enough memory or none**: a block that it returns has room for
`nbytes` bytes below the break, and `sbrk` is asked for a positive number of bytes only. -/
def Heap.Enough (h : Heap) (base : ℕ) (ok : ℕ → Bool) (nbytes : ℕ) : Prop :=
  ∀ fuel, (∀ n ∈ h.asks base fuel ok nbytes, 0 < asInt n) ∧
    ∀ r h', h.malloc base fuel ok nbytes = some (r, h') → r ≠ 0 →
      nbytes ≤ 8 * (h'.size (r - 8) - 1) ∧ r + 8 * (h'.size (r - 8) - 1) ≤ h'.brk

/-- The free list is empty, and `sbrk` refuses the smallest request of `morecore`. -/
def Heap.Exhausted (h : Heap) (ok : ℕ → Bool) : Prop :=
  (h.freep = 0 ∨ h.ptr h.freep = h.freep) ∧ ¬(ok h.brk = true ∧ h.brk + 32768 < 2 ^ 31)

/-! ## What sbrk is asked for -/

section Asks

variable {h : Heap} {ok : ℕ → Bool} {n prevp p : ℕ} {A : List ℕ}

/-- `sbrk` is called with one number only. -/
theorem eq_of_mem_mallocAsks {fuel m : ℕ} (hm : m ∈ mallocAsks ok n fuel prevp p h) :
    m = asked n := by
  induction fuel generalizing prevp p h with
  | zero => cases hm
  | succ fuel ih =>
    rw [mallocAsks] at hm
    split_ifs at hm with hsize hp
    · cases hm
    · rcases mem_cons.1 hm with rfl | hm
      · rfl
      · cases hmore : h.morecore fuel ok n with
        | none =>
          rw [hmore] at hm
          cases hm
        | some ph =>
          simp only [hmore] at hm
          split_ifs at hm
          · cases hm
          · exact ih hm
    · exact ih hm

/-- Where no block is large enough, `sbrk` is called. -/
theorem asked_mem_mallocAsks (ok : ℕ → Bool) (fuel : ℕ) (hlink : Linked h.ptr (prevp :: A) h.freep)
    (hA : ∀ a ∈ A, h.size a < n ∧ a ≠ h.freep) (hf : h.size h.freep < n) :
    asked n ∈ mallocAsks ok n (fuel + A.length + 1) prevp (h.ptr prevp) h := by
  induction A generalizing prevp with
  | nil =>
    have hnext : h.ptr prevp = h.freep := hlink.1
    rw [hnext, mallocAsks, if_neg (Nat.not_le.2 hf), if_pos rfl]
    exact mem_cons_self
  | cons a A ih =>
    have hnext : h.ptr prevp = a := hlink.1
    obtain ⟨hsize, hne⟩ := hA a mem_cons_self
    rw [hnext, length_cons, mallocAsks, if_neg (Nat.not_le.2 hsize), if_neg hne]
    exact ih hlink.2 fun b hb => hA b (mem_cons_of_mem a hb)

/-- The requests that are served. -/
theorem asInt_asked_pos (hn : n < 2 ^ 28) : 0 < asInt (asked n) := by
  simp only [asInt, asked, sizeofHeader]
  split_ifs <;> omega

/-- The products that are not positive as an `int`. -/
theorem asInt_asked_nonpos (hn : 2 ^ 28 ≤ n) (hn' : n ≤ 2 ^ 29) : asInt (asked n) ≤ 0 := by
  simp only [asInt, asked, sizeofHeader]
  split_ifs <;> omega

theorem units_large {nbytes : ℕ} (hn : 2 ^ 31 - 16 < nbytes) (hn' : nbytes ≤ 2 ^ 32 - 8) :
    2 ^ 28 ≤ Heap.units nbytes ∧ Heap.units nbytes ≤ 2 ^ 29 := by
  simp only [Heap.units, sizeofHeader]
  omega

theorem units_wrap {nbytes : ℕ} (hn : 2 ^ 32 - 8 < nbytes) (hn' : nbytes < 2 ^ 32) :
    Heap.units nbytes = 1 := by
  simp only [Heap.units, sizeofHeader]
  omega

end Asks

/-! ## Every request -/

section Requests

variable {base start : ℕ} {h : Heap} {B : List Block} {ok : ℕ → Bool} {nbytes : ℕ}

variable (hb : base + 8 ≤ start)

include hb

/-- A free list without blocks is the static header alone. -/
theorem Core.frees_eq_nil_iff (hc : Core base start h B) :
    frees B = [] ↔ h.ptr h.freep = h.freep := by
  obtain ⟨W, hlink, hnodup, -, hlen⟩ := hc.rotate hb
  constructor
  · intro hnil
    rw [hnil, length_nil, length_eq_zero_iff] at hlen
    rw [hlen] at hlink
    exact hlink.1
  · intro hptr
    cases W with
    | nil => exact length_eq_zero_iff.1 hlen.symm
    | cons w W =>
      have hnext : h.ptr h.freep = w := hlink.1
      rw [hptr] at hnext
      exact absurd (hnext ▸ mem_cons_self) (nodup_cons.1 hnodup).1

/-- When one unit is refused. -/
theorem Core.refused_one_iff (hc : Core base start h B) :
    Refused h B ok 1 ↔
      h.ptr h.freep = h.freep ∧ ¬(ok h.brk = true ∧ h.brk + 32768 < 2 ^ 31) := by
  rw [← hc.frees_eq_nil_iff hb, Refused]
  refine and_congr ?_ Iff.rfl
  constructor
  · intro hno
    refine eq_nil_iff_forall_not_mem.2 fun x hx => ?_
    obtain ⟨b, hbB, hbf, -⟩ := mem_frees.1 hx
    have hpos := (hc.tiles.mem hbB).2.1
    have hlt := hno b hbB hbf
    omega
  · intro hnil b hbB hbf
    have hx := mem_frees.2 ⟨b, hbB, hbf, rfl⟩
    rw [hnil] at hx
    cases hx

/-- The list is empty where the one that `malloc` searches is. -/
theorem exhausted_iff {h1 : Heap}
    (hh1 : h1 = if h.freep = 0 then
      { (h.setPtr base base).setSize base 0 with freep := base } else h)
    (hc : Core base start h1 B) : h.Exhausted ok ↔ Refused h1 B ok 1 := by
  rw [hc.refused_one_iff hb, Heap.Exhausted]
  by_cases hf : h.freep = 0
  · rw [if_pos hf] at hh1
    have hptr : h1.ptr h1.freep = h1.freep := by
      rw [hh1]
      exact (ptr_setSize (q := base) (by omega)).trans (ptr_setPtr.trans (if_pos rfl))
    rw [hptr, hh1]
    simp only [hf, true_or, true_and]
    rfl
  · rw [if_neg hf] at hh1
    subst hh1
    simp only [hf, false_or]

variable (hpos : 0 < base) (hs : start < 2 ^ 32) (hi : Inv base start h)

include hpos hs hi

/-- **Requests of up to `2^31 - 16` bytes** are served in full. -/
theorem Inv.enough (hn : nbytes ≤ 2 ^ 31 - 16) : h.Enough base ok nbytes := by
  intro fuel
  constructor
  · intro m hm
    rw [eq_of_mem_mallocAsks hm]
    exact asInt_asked_pos (units_bounds hn).2.1
  · intro r h' hm hr
    obtain ⟨N, hN⟩ := hi.malloc hb hpos hs hn ok
    obtain ⟨r', h'', hm', -, hr'⟩ := hN (max fuel N) (le_max_right _ _)
    rw [malloc_mono hm (le_max_left _ _)] at hm'
    cases hm'
    exact hr' hr

/-- **Larger requests** that do not wrap around call `sbrk` with a number that is not positive: no
block of the list is large enough. -/
theorem Inv.not_enough_of_large (hbrk : h.brk ≤ 2 ^ 31) (hn : 2 ^ 31 - 16 < nbytes)
    (hn' : nbytes ≤ 2 ^ 32 - 8) : ¬h.Enough base ok nbytes := by
  intro henough
  obtain ⟨hu, hu'⟩ := units_large hn hn'
  obtain ⟨h1, B, hh1, hbrk1, hc, -⟩ := hi.set_up hb hpos hs
  have hno : ∀ b ∈ B, b.free = true → b.size < Heap.units nbytes := fun b hbB _ => by
    have := hc.tiles.mem hbB
    omega
  obtain ⟨W, hlink, hW, hfreep, -⟩ := hc.rotate_small hb (by omega) hno
  have hmem := asked_mem_mallocAsks ok 0 hlink hW hfreep
  have hpos := (henough (0 + W.length + 1)).1 (asked (Heap.units nbytes)) (by
    simp only [Heap.asks, ← hh1]
    exact hmem)
  exact Int.not_lt.2 (asInt_asked_nonpos hu hu') hpos

/-- **Requests that wrap around** get a block without room, unless they get none. -/
theorem Inv.enough_iff_exhausted (hn : 2 ^ 32 - 8 < nbytes) (hn' : nbytes < 2 ^ 32) :
    h.Enough base ok nbytes ↔ h.Exhausted ok := by
  obtain ⟨h1, B, hh1, -, hc, -⟩ := hi.set_up hb hpos hs
  obtain ⟨N, hN⟩ := hc.mallocLoop hb hpos Nat.one_pos (by decide) ok
  have hloop : ∀ fuel, h.malloc base fuel ok nbytes =
      Heap.mallocLoop ok 1 fuel h1.freep (h1.ptr h1.freep) h1 := fun fuel => by
    simp only [Heap.malloc, ← hh1, units_wrap hn hn']
  rw [exhausted_iff hb hh1 hc]
  constructor
  · intro henough
    rcases hN N (le_refl N) with ⟨hr, -⟩ | ⟨-, a, h', hm, B', -, -, ha, -⟩
    · exact hr
    · have hroom := ((henough N).2 (a + 8) h' ((hloop N).trans hm) (by omega)).1
      rw [Nat.add_sub_cancel, ha] at hroom
      omega
  · intro hr fuel
    constructor
    · intro m hm
      rw [eq_of_mem_mallocAsks hm, units_wrap hn hn']
      exact asInt_asked_pos (by decide)
    · intro r h' hm hne
      rcases hN (max fuel N) (le_max_right _ _) with ⟨-, hm'⟩ | ⟨hnr, -⟩
      · rw [← hloop, malloc_mono hm (le_max_left _ _)] at hm'
        cases hm'
        exact absurd rfl hne
      · exact absurd hr hnr

end Requests

/-- **`malloc` returns enough memory exactly for requests of up to `2^31 - 16` bytes.** In every
state of the heap of a process below `KERNBASE`, for every 32-bit request: the larger ones make
`morecore` call `sbrk` with a number that is not positive, and the last seven get a block without
room, unless the free list is empty and `sbrk` refuses. -/
theorem malloc_enough_iff {base start : ℕ} (hpos : 0 < base) (hb : base + 8 ≤ start) {h : Heap}
    (hi : Inv base start h) (hbrk : h.brk ≤ 2 ^ 31) (ok : ℕ → Bool) {nbytes : ℕ}
    (hn : nbytes < 2 ^ 32) :
    h.Enough base ok nbytes ↔ nbytes ≤ 2 ^ 31 - 16 ∨ 2 ^ 32 - 8 < nbytes ∧ h.Exhausted ok := by
  have hs : start < 2 ^ 32 := by
    rcases hi with ⟨-, hbrk', -⟩ | ⟨B, hc, -⟩
    · omega
    · have := hc.tiles.le
      omega
  by_cases hsmall : nbytes ≤ 2 ^ 31 - 16
  · exact iff_of_true (hi.enough hb hpos hs hsmall) (.inl hsmall)
  · by_cases hlarge : nbytes ≤ 2 ^ 32 - 8
    · refine iff_of_false (hi.not_enough_of_large hb hpos hs hbrk (by omega) hlarge) ?_
      omega
    · rw [hi.enough_iff_exhausted hb hpos hs (by omega) hn]
      constructor
      · exact fun hex => .inr ⟨by omega, hex⟩
      · rintro (hle | ⟨-, hex⟩)
        · exact absurd hle hsmall
        · exact hex

/-- The hypotheses of `malloc_enough_iff` are satisfiable: before the first call, a request of
100 bytes is served in full, and one of `2^31` bytes is not. -/
theorem malloc_enough_iff_first :
    (Heap.init (fun _ => 0) 4096).Enough 4080 (fun _ => true) 100 ∧
      ¬(Heap.init (fun _ => 0) 4096).Enough 4080 (fun _ => true) (2 ^ 31) := by
  have hinv : Inv 4080 4096 (Heap.init (fun _ => 0) 4096) := .inl ⟨rfl, rfl, fun _ => rfl⟩
  constructor
  · exact (malloc_enough_iff (by decide) (by decide) hinv (by decide) _ (by decide)).2
      (.inl (by decide))
  · rw [malloc_enough_iff (by decide) (by decide) hinv (by decide) _ (by decide)]
    omega

/-- The first call of a program, with all ones for the number of bytes: `malloc` returns a block
that is a header alone. -/
theorem malloc_wraps :
    ((Heap.init (fun _ => 0) 4096).malloc 4080 8 (fun _ => true) (2 ^ 32 - 1)).map
      (fun r => (r.1, r.2.size (r.1 - 8))) = some (36864, 1) ∧
    ¬(Heap.init (fun _ => 0) 4096).Enough 4080 (fun _ => true) (2 ^ 32 - 1) := by
  have hrun : ((Heap.init (fun _ => 0) 4096).malloc 4080 8 (fun _ => true) (2 ^ 32 - 1)).map
      (fun r => (r.1, r.2.size (r.1 - 8))) = some (36864, 1) := by decide +kernel
  refine ⟨hrun, fun henough => ?_⟩
  obtain ⟨⟨r, h'⟩, hm, hr⟩ := Option.map_eq_some_iff.1 hrun
  obtain ⟨rfl, hsize⟩ := Prod.mk.inj hr
  have hroom := ((henough 8).2 _ h' hm (by decide)).1
  rw [hsize] at hroom
  omega

end Xv6.Umalloc
