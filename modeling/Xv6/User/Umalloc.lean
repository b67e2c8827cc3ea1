/-
# The user heap allocator

`free`, `morecore` and `malloc` of `umalloc.c`, on a memory of 32-bit words.  A header is two
words, `ptr` and `size`, and `size` counts units of a header.  `sbrk` fails or moves the
break; the program may store anything in the blocks it holds.  The search loops take the
number of rounds they may make, and stop without a result if it is used up.

`freeLoop_eq` and `mallocLoop_found`, `mallocLoop_none` say where the loops stop on a cyclic
list.
-/

import Xv6.Lib.Linked
import Xv6.Lib.Run
import Mathlib.Data.List.Sort
import Mathlib.Tactic.Ring

namespace Xv6.Umalloc

open Function Lib List Nat

/-- The memory, `freep`, the break, and the pointers that `malloc` has returned and that are not
freed. -/
structure Heap where
  mem : ℕ → ℕ
  freep : ℕ
  brk : ℕ
  live : ℕ → Bool

/-- `sizeof(Header)`. -/
abbrev sizeofHeader : ℕ := 8

/-- `p + n` for a pointer to headers. -/
def plus (p n : ℕ) : ℕ := (p + sizeofHeader * n) % 2 ^ 32

namespace Heap

variable (h : Heap)

/-- `p->s.ptr`. -/
def ptr (p : ℕ) : ℕ := h.mem p

/-- `p->s.size`. -/
def size (p : ℕ) : ℕ := h.mem (p + 4)

/-- `p->s.ptr = v`. -/
def setPtr (p v : ℕ) : Heap := { h with mem := update h.mem p v }

/-- `p->s.size = v`. -/
def setSize (p v : ℕ) : Heap := { h with mem := update h.mem (p + 4) v }

/-- The loop of `free`: the block after which `bp` goes. -/
def freeLoop (bp : ℕ) : ℕ → ℕ → Option ℕ
  | 0, _ => none
  | fuel + 1, p =>
      if bp > p ∧ bp < h.ptr p then some p
      else if p ≥ h.ptr p ∧ (bp > p ∨ bp < h.ptr p) then some p
      else freeLoop bp fuel (h.ptr p)

/-- In `free`, `bp` is joined with the block behind it or linked to it; `p` is the block
before. -/
def joinNext (bp p : ℕ) : Heap :=
  if plus bp (h.size bp) = h.ptr p then
    let h₁ := h.setSize bp ((h.size bp + h.size (h.ptr p)) % 2 ^ 32)
    h₁.setPtr bp (h₁.ptr (h₁.ptr p))
  else h.setPtr bp (h.ptr p)

/-- In `free`, `bp` is joined with the block `p` before it or linked from it. -/
def joinPrev (bp p : ℕ) : Heap :=
  if plus p (h.size p) = bp then
    let h₁ := h.setSize p ((h.size p + h.size bp) % 2 ^ 32)
    h₁.setPtr p (h₁.ptr bp)
  else h.setPtr p bp

/-- `free(ap)`. -/
def free (fuel ap : ℕ) : Option Heap :=
  let bp := (ap + 2 ^ 32 - sizeofHeader) % 2 ^ 32
  (h.freeLoop bp fuel h.freep).map fun p =>
    { (h.joinNext bp p).joinPrev bp p with freep := p }

/-- `sbrk(n)`, as `growproc` does it with `n` read as an `int`: the old break, or none for -1.
More memory is refused where `ok` says so or the break would get to `KERNBASE`. For a negative `n`
the break moves down, and stays where it is if it would get below 0. -/
def sbrk (ok : ℕ → Bool) (n : ℕ) : Option ℕ × Heap :=
  if 0 < n ∧ n < 2 ^ 31 then
    if ok h.brk ∧ h.brk + n < 2 ^ 31 then (some h.brk, { h with brk := h.brk + n })
    else (none, h)
  else
    let newsz := (h.brk + n) % 2 ^ 32
    let sz := if newsz ≥ h.brk then h.brk else newsz
    if sz = 0 then (none, h) else (some h.brk, { h with brk := sz })

/-- `morecore(nu)`: `freep`, or 0. -/
def morecore (fuel : ℕ) (ok : ℕ → Bool) (nu : ℕ) : Option (ℕ × Heap) :=
  let nu := if nu < 4096 then 4096 else nu
  match h.sbrk ok (nu * sizeofHeader % 2 ^ 32) with
  | (none, h) => some (0, h)
  | (some p, h) => ((h.setSize p nu).free fuel (plus p 1)).map fun h => (h.freep, h)

/-- `malloc` takes `nunits` units from the block `p` behind `prevp`. -/
def take (nunits prevp p : ℕ) : ℕ × Heap :=
  if h.size p = nunits then
    (plus p 1, { h.setPtr prevp (h.ptr p) with freep := prevp })
  else
    let h := h.setSize p (h.size p - nunits)
    let p := plus p (h.size p)
    (plus p 1, { h.setSize p nunits with freep := prevp })

/-- The loop of `malloc`: the pointer it returns. -/
def mallocLoop (ok : ℕ → Bool) (nunits : ℕ) : ℕ → ℕ → ℕ → Heap → Option (ℕ × Heap)
  | 0, _, _, _ => none
  | fuel + 1, prevp, p, h =>
      if h.size p ≥ nunits then some (h.take nunits prevp p)
      else if p = h.freep then
        match h.morecore fuel ok nunits with
        | none => none
        | some (p, h) =>
            if p = 0 then some (0, h) else mallocLoop ok nunits fuel p (h.ptr p) h
      else mallocLoop ok nunits fuel p (h.ptr p) h

/-- The units that `malloc(nbytes)` asks for. -/
def units (nbytes : ℕ) : ℕ := (nbytes + sizeofHeader - 1) % 2 ^ 32 / sizeofHeader + 1

/-- `malloc(nbytes)`; `base` is the address of the static header. -/
def malloc (base fuel : ℕ) (ok : ℕ → Bool) (nbytes : ℕ) : Option (ℕ × Heap) :=
  let h₁ := if h.freep = 0 then { (h.setPtr base base).setSize base 0 with freep := base } else h
  mallocLoop ok (units nbytes) fuel h₁.freep (h₁.ptr h₁.freep) h₁

end Heap

/-- A call, with the number of rounds of its loops and what `sbrk` does, or a store of the
program. -/
inductive Act where
  | malloc (fuel : ℕ) (ok : ℕ → Bool) (nbytes : ℕ)
  | free (fuel ap : ℕ)
  | store (ap a v : ℕ)

/-- The effect of a call: `malloc` is called with less than `2^31 - 16` bytes, `free` with a
pointer that is live, and the program stores in the bytes of a live block. -/
def Heap.step (base : ℕ) (h : Heap) : Act → Option (Except Empty Heap)
  | .malloc fuel ok nbytes =>
      if nbytes < 2 ^ 31 - 16 then
        (h.malloc base fuel ok nbytes).map fun (r, h) =>
          .ok (if r = 0 then h else { h with live := update h.live r true })
      else none
  | .free fuel ap =>
      if h.live ap then
        (h.free fuel ap).map fun h => .ok { h with live := update h.live ap false }
      else none
  | .store ap a v =>
      if h.live ap ∧ ap ≤ a ∧ a + 4 ≤ ap - sizeofHeader + sizeofHeader * h.size (ap - sizeofHeader)
      then some (.ok { h with mem := update h.mem a v })
      else none

/-- Before the first call: `freep` is null and nothing has been obtained from `sbrk`. -/
def Heap.init (mem : ℕ → ℕ) (start : ℕ) : Heap := ⟨mem, 0, start, fun _ => false⟩

variable {h : Heap} {p q v : ℕ} {base bp fuel fuel' : ℕ} {ok : ℕ → Bool} {r : ℕ × Heap}

/-! ### Reading after writing -/

theorem ptr_setPtr : (h.setPtr p v).ptr q = if q = p then v else h.ptr q := by
  change update h.mem p v q = _
  rw [update_apply]
  rfl

theorem size_setSize : (h.setSize p v).size q = if q = p then v else h.size q := by
  change update h.mem (p + 4) v (q + 4) = _
  rw [update_apply]
  simp only [add_right_cancel_iff]
  rfl

theorem size_setPtr (hne : q + 4 ≠ p) : (h.setPtr p v).size q = h.size q :=
  update_of_ne hne ..

theorem ptr_setSize (hne : q ≠ p + 4) : (h.setSize p v).ptr q = h.ptr q :=
  update_of_ne hne ..

/-! ### Where the loop of `free` stops -/

/-- The loop of `free` stops at `p`. -/
def Heap.Stops (h : Heap) (bp p : ℕ) : Prop :=
  (bp > p ∧ bp < h.ptr p) ∨ (p ≥ h.ptr p ∧ (bp > p ∨ bp < h.ptr p))

theorem freeLoop_stop (hp : h.Stops bp p) : h.freeLoop bp (fuel + 1) p = some p := by
  rw [Heap.freeLoop]
  split_ifs with h1 h2
  · rfl
  · rfl
  · exact (hp.elim h1 h2).elim

theorem freeLoop_go (hp : ¬ h.Stops bp p) :
    h.freeLoop bp (fuel + 1) p = h.freeLoop bp fuel (h.ptr p) := by
  rw [Heap.freeLoop, if_neg fun hc => hp (.inl hc), if_neg fun hc => hp (.inr hc)]

/-- The loop of `free` goes along the list to the first block where it stops. -/
theorem freeLoop_walk {c : ℕ} {A Z : List ℕ} (hlink : Linked h.ptr (A ++ p :: Z) c)
    (hp : h.Stops bp p) (hA : ∀ x ∈ A, ¬ h.Stops bp x) (hfuel : A.length < fuel) :
    h.freeLoop bp fuel (A.headD p) = some p := by
  induction A generalizing fuel with
  | nil =>
    obtain ⟨fuel, rfl⟩ := exists_eq_succ_of_ne_zero (ne_of_gt hfuel)
    exact freeLoop_stop hp
  | cons a A ih =>
    obtain ⟨fuel, rfl⟩ := exists_eq_succ_of_ne_zero (ne_of_gt (zero_lt_of_lt hfuel))
    have hnext : h.ptr a = A.headD p := by
      rw [hlink.1]
      cases A <;> rfl
    rw [headD_cons, freeLoop_go (hA a mem_cons_self), hnext]
    exact ih hlink.2 (fun x hx => hA x (mem_cons_of_mem a hx)) (lt_of_succ_lt_succ hfuel)

/-- On a cyclic list that is sorted from `base` on, the loop of `free` stops at the last block
before `bp` only. -/
theorem stops_iff {N : List ℕ} (hsort : (base :: N).Pairwise (· < ·))
    (hlink : Linked h.ptr (base :: N) base) (hp : p ∈ base :: N) (hlt : p < bp)
    (hbp : bp ∉ base :: N) (hlast : ∀ x ∈ base :: N, x < bp → x ≤ p) {x : ℕ}
    (hx : x ∈ base :: N) : h.Stops bp x ↔ x = p := by
  have hbase : base < bp := by
    rcases mem_cons.1 hp with rfl | hp'
    · exact hlt
    · exact (rel_of_pairwise_cons hsort hp').trans hlt
  have hle : ∀ y ∈ base :: N, base ≤ y := fun y hy => by
    rcases mem_cons.1 hy with rfl | hy
    · exact le_rfl
    · exact (rel_of_pairwise_cons hsort hy).le
  have hxbp : x ≠ bp := fun hc => hbp (hc ▸ hx)
  obtain ⟨A, Z, hN⟩ := append_of_mem hx
  have hnext : h.ptr x = Z.headD base := by
    rw [hN] at hlink
    exact hlink.next_eq
  rw [hN] at hsort
  obtain ⟨-, hxZ, hAx⟩ := pairwise_append.1 hsort
  cases Z with
  | nil =>
    have hmax : ∀ y ∈ base :: N, y ≤ x := fun y hy => by
      rw [hN, mem_append, mem_singleton] at hy
      rcases hy with hy | rfl
      · exact (hAx y hy x mem_cons_self).le
      · exact le_rfl
    have hx0 := hle x hx
    have hpx := hmax p hp
    rw [Heap.Stops, hnext, headD_nil]
    constructor
    · intro hs
      exact le_antisymm (hlast x hx (by omega)) hpx
    · rintro rfl
      exact .inr ⟨hx0, .inl hlt⟩
  | cons z Z =>
    have hxz : x < z := rel_of_pairwise_cons hxZ mem_cons_self
    have hz : z ∈ base :: N := by
      rw [hN]
      simp
    have hzbp : z ≠ bp := fun hc => hbp (hc ▸ hz)
    rw [Heap.Stops, hnext, headD_cons]
    constructor
    · intro hs
      have hlast' := hlast x hx (by omega)
      have hpz : p < z := by omega
      rw [hN, mem_append, mem_cons, mem_cons] at hp
      rcases hp with hp | rfl | rfl | hp
      · exact le_antisymm hlast' (hAx p hp x mem_cons_self).le
      · rfl
      · exact absurd hpz (lt_irrefl _)
      · have := rel_of_pairwise_cons (pairwise_cons.1 hxZ).2 hp
        omega
    · rintro rfl
      have := hlast z hz
      exact .inl ⟨hlt, by omega⟩

/-- **Where the loop of `free` stops**: from any block `f` of the list, at the last block before
`bp`, after one round at most. -/
theorem freeLoop_eq {f : ℕ} {N : List ℕ} (hsort : (base :: N).Pairwise (· < ·))
    (hlink : Linked h.ptr (base :: N) base) (hf : f ∈ base :: N) (hp : p ∈ base :: N)
    (hlt : p < bp) (hbp : bp ∉ base :: N) (hlast : ∀ x ∈ base :: N, x < bp → x ≤ p)
    (hfuel : N.length < fuel) : h.freeLoop bp fuel f = some p := by
  have hstops := fun {x} => stops_iff hsort hlink hp hlt hbp hlast (x := x)
  obtain ⟨N1, N2, hN⟩ := append_of_mem hf
  have hrot : Linked h.ptr (f :: (N2 ++ N1)) f := by
    refine Linked.rotate (c := base) ?_
    rw [← hN]
    exact hlink
  have hmem : ∀ x, x ∈ f :: (N2 ++ N1) ↔ x ∈ base :: N := fun x => by
    rw [hN]
    simp only [mem_cons, mem_append]
    tauto
  obtain ⟨A, Z, hA, hpA⟩ := eq_append_cons_of_mem ((hmem p).2 hp)
  have hhead : A.headD p = f := by
    have := congrArg (headD · p) hA
    cases A <;> exact this.symm
  have hlen : A.length < fuel := by
    have h1 := congrArg length hA
    have h2 := congrArg length hN
    simp only [length_cons, length_append] at h1 h2
    omega
  rw [hA] at hrot
  rw [← hhead]
  refine freeLoop_walk hrot ((hstops hp).2 rfl) (fun x hx hs => ?_) hlen
  have hxN : x ∈ base :: N := (hmem x).1 (by rw [hA]; exact mem_append_left _ hx)
  obtain rfl := (hstops hxN).1 hs
  exact hpA hx

/-! ### More rounds do not change a result -/

theorem freeLoop_mono (hf : h.freeLoop bp fuel p = some q)
    (hle : fuel ≤ fuel') : h.freeLoop bp fuel' p = some q := by
  induction fuel generalizing p fuel' with
  | zero => cases hf
  | succ fuel ih =>
    obtain ⟨fuel', rfl⟩ := exists_eq_succ_of_ne_zero (n := fuel') (by omega)
    simp only [Heap.freeLoop] at hf ⊢
    split_ifs at hf ⊢
    · exact hf
    · exact hf
    · exact ih hf (le_of_succ_le_succ hle)

theorem free_mono {ap : ℕ} {h' : Heap} (hf : h.free fuel ap = some h')
    (hle : fuel ≤ fuel') : h.free fuel' ap = some h' := by
  obtain ⟨p, hp, hh⟩ := Option.map_eq_some_iff.1 hf
  exact Option.map_eq_some_iff.2 ⟨p, freeLoop_mono hp hle, hh⟩

theorem morecore_mono {nu : ℕ} (hf : h.morecore fuel ok nu = some r) (hle : fuel ≤ fuel') :
    h.morecore fuel' ok nu = some r := by
  unfold Heap.morecore at hf ⊢
  dsimp only at hf ⊢
  split at hf
  · exact hf
  · obtain ⟨h', hh, hr⟩ := Option.map_eq_some_iff.1 hf
    exact Option.map_eq_some_iff.2 ⟨h', free_mono hh hle, hr⟩

theorem mallocLoop_mono {n prevp : ℕ} (hf : Heap.mallocLoop ok n fuel prevp p h = some r)
    (hle : fuel ≤ fuel') : Heap.mallocLoop ok n fuel' prevp p h = some r := by
  induction fuel generalizing prevp p h fuel' with
  | zero => cases hf
  | succ fuel ih =>
    obtain ⟨fuel', rfl⟩ := exists_eq_succ_of_ne_zero (n := fuel') (by omega)
    replace hle : fuel ≤ fuel' := le_of_succ_le_succ hle
    simp only [Heap.mallocLoop] at hf ⊢
    by_cases hsize : h.size p ≥ n
    · rw [if_pos hsize] at hf ⊢
      exact hf
    · rw [if_neg hsize] at hf ⊢
      by_cases hp : p = h.freep
      · rw [if_pos hp] at hf ⊢
        split at hf
        · cases hf
        · rename_i q h' hm
          rw [morecore_mono hm hle]
          dsimp only
          split_ifs at hf ⊢
          · exact hf
          · exact ih hf hle
      · rw [if_neg hp] at hf ⊢
        exact ih hf hle

theorem malloc_mono {nbytes : ℕ} (hf : h.malloc base fuel ok nbytes = some r) (hle : fuel ≤ fuel') :
    h.malloc base fuel' ok nbytes = some r :=
  mallocLoop_mono hf hle

/-! ### Where the loop of `malloc` stops -/

section malloc

variable {ok : ℕ → Bool} {n prevp x fuel : ℕ} {A W : List ℕ}

/-- The loop of `malloc` goes along the list to the first block that is large enough. -/
theorem mallocLoop_found (hlink : Linked h.ptr (prevp :: A) x)
    (hA : ∀ a ∈ A, h.size a < n ∧ a ≠ h.freep) (hx : n ≤ h.size x) (hfuel : A.length < fuel) :
    Heap.mallocLoop ok n fuel prevp (h.ptr prevp) h = some (h.take n (A.getLastD prevp) x) := by
  induction A generalizing prevp fuel with
  | nil =>
    obtain ⟨fuel, rfl⟩ := exists_eq_succ_of_ne_zero (ne_of_gt hfuel)
    have hnext : h.ptr prevp = x := hlink.1
    rw [hnext, Heap.mallocLoop, if_pos hx, getLastD_nil]
  | cons a A ih =>
    obtain ⟨fuel, rfl⟩ := exists_eq_succ_of_ne_zero (ne_of_gt (zero_lt_of_lt hfuel))
    have hnext : h.ptr prevp = a := hlink.1
    obtain ⟨hsize, hne⟩ := hA a mem_cons_self
    rw [hnext, Heap.mallocLoop, if_neg (not_le.2 hsize), if_neg hne, getLastD_cons]
    exact ih hlink.2 (fun b hb => hA b (mem_cons_of_mem a hb)) (lt_of_succ_lt_succ hfuel)

/-- Where no block is large enough, the loop of `malloc` comes round to `freep` and calls
`morecore`. -/
theorem mallocLoop_none (ok : ℕ → Bool) (fuel : ℕ) (hlink : Linked h.ptr (prevp :: A) h.freep)
    (hA : ∀ a ∈ A, h.size a < n ∧ a ≠ h.freep) (hf : h.size h.freep < n) :
    Heap.mallocLoop ok n (fuel + A.length + 1) prevp (h.ptr prevp) h =
      match h.morecore fuel ok n with
      | none => none
      | some (p, h) =>
        if p = 0 then some (0, h) else Heap.mallocLoop ok n fuel p (h.ptr p) h := by
  induction A generalizing prevp with
  | nil =>
    have hnext : h.ptr prevp = h.freep := hlink.1
    rw [hnext, length_nil, add_zero, Heap.mallocLoop, if_neg (not_le.2 hf), if_pos rfl]
  | cons a A ih =>
    have hnext : h.ptr prevp = a := hlink.1
    obtain ⟨hsize, hne⟩ := hA a mem_cons_self
    rw [hnext, length_cons, Heap.mallocLoop, if_neg (not_le.2 hsize), if_neg hne]
    exact ih hlink.2 fun b hb => hA b (mem_cons_of_mem a hb)

/-- **The loop of `malloc` finds a block** that is large enough if there is one in the list, in one
round at most. -/
theorem mallocLoop_search (ok : ℕ → Bool) (hlink : Linked h.ptr (h.freep :: W) h.freep)
    (hnodup : (h.freep :: W).Nodup) (hex : ∃ x ∈ h.freep :: W, n ≤ h.size x) :
    ∃ y ∈ h.freep :: W, ∃ x ∈ h.freep :: W, h.ptr y = x ∧ n ≤ h.size x ∧
      ∀ fuel > W.length,
        Heap.mallocLoop ok n fuel h.freep (h.ptr h.freep) h = some (h.take n y x) := by
  have hne : ∀ a ∈ W, a ≠ h.freep := fun a ha hc => by
    rw [nodup_cons] at hnodup
    exact hnodup.1 (hc ▸ ha)
  cases hfind : W.find? fun a => decide (n ≤ h.size a) with
  | some x =>
    obtain ⟨hx, A, Z, rfl, hA⟩ := find?_eq_some_iff_append.1 hfind
    have hx : n ≤ h.size x := of_decide_eq_true hx
    have hlinkA : Linked h.ptr (h.freep :: A) x := (linked_append (l := h.freep :: A)).1 hlink |>.1
    obtain ⟨hmem, hptr⟩ := hlinkA.last
    have hsub : ∀ a ∈ h.freep :: A, a ∈ h.freep :: (A ++ x :: Z) := fun a ha => by
      simp only [mem_cons, mem_append] at ha ⊢
      tauto
    refine ⟨_, hsub _ hmem, x, by simp, hptr, hx, fun fuel hfuel => ?_⟩
    refine mallocLoop_found hlinkA (fun a ha => ⟨?_, hne a (mem_append_left _ ha)⟩) hx ?_
    · simpa using hA a ha
    · simp only [length_append] at hfuel
      omega
  | none =>
    have hsmall : ∀ a ∈ W, h.size a < n := fun a ha => by
      simpa using find?_eq_none.1 hfind a ha
    have hx : n ≤ h.size h.freep := by
      obtain ⟨x, hx, hsize⟩ := hex
      rcases mem_cons.1 hx with rfl | hx
      · exact hsize
      · exact absurd hsize (not_le.2 (hsmall x hx))
    obtain ⟨hmem, hptr⟩ := hlink.last
    exact ⟨_, hmem, h.freep, mem_cons_self, hptr, hx, fun fuel hfuel =>
      mallocLoop_found hlink (fun a ha => ⟨hsmall a ha, hne a ha⟩) hx hfuel⟩

end malloc

end Xv6.Umalloc
