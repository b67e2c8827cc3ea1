/-
# The heap is a row of blocks

The invariant of `umalloc.c`.  The memory obtained from `sbrk` is a row of blocks, free or
live, one behind the other (`Tiles`), of which no two free ones are neighbours; the free ones
are the list that starts at `base`, in this order, and `freep` is one of them or `base`
(`Core`).  `free` turns a live block into a free one and joins it with its neighbours
(`Core.free`), `malloc` takes a live block from a free one (`Core.take`), `morecore` adds a
block at the end.  `heap_inv` is the result for every sequence of calls.
-/

import Xv6.User.Umalloc
import Mathlib.Data.List.Chain

namespace Xv6.Umalloc

open Function Lib List Nat

/-- A block: the address of its header, its size in units with the header, and whether it is
free. -/
structure Block where
  addr : ℕ
  size : ℕ
  free : Bool

/-- The blocks `B` lie one behind the other from `a` to `e`. -/
def Tiles : ℕ → List Block → ℕ → Prop
  | a, [], e => a = e
  | a, b :: B, e => b.addr = a ∧ 0 < b.size ∧ Tiles (a + 8 * b.size) B e

/-- The headers of the free blocks. -/
def frees (B : List Block) : List ℕ := (B.filter Block.free).map Block.addr

/-- The headers of the live blocks. -/
def lives (B : List Block) : List ℕ := (B.filter fun b => !b.free).map Block.addr

section Blocks

variable {a e : ℕ} {b c : Block} {B B1 B2 : List Block} {x : ℕ}

theorem frees_append : frees (B1 ++ B2) = frees B1 ++ frees B2 := by
  rw [frees, filter_append, map_append]
  rfl

theorem frees_cons_free (hb : b.free = true) : frees (b :: B) = b.addr :: frees B := by
  rw [frees, filter_cons_of_pos hb]
  rfl

theorem frees_cons_live (hb : b.free = false) : frees (b :: B) = frees B := by
  rw [frees, filter_cons_of_neg (by simp [hb])]
  rfl

theorem lives_append : lives (B1 ++ B2) = lives B1 ++ lives B2 := by
  rw [lives, filter_append, map_append]
  rfl

theorem lives_cons_free (hb : b.free = true) : lives (b :: B) = lives B := by
  rw [lives, filter_cons_of_neg (by simp [hb])]
  rfl

theorem lives_cons_live (hb : b.free = false) : lives (b :: B) = b.addr :: lives B := by
  rw [lives, filter_cons_of_pos (by simp [hb])]
  rfl

theorem mem_frees : x ∈ frees B ↔ ∃ b ∈ B, b.free = true ∧ b.addr = x := by
  simp only [frees, mem_map, mem_filter, and_assoc]

theorem mem_lives : x ∈ lives B ↔ ∃ b ∈ B, b.free = false ∧ b.addr = x := by
  simp only [lives, mem_map, mem_filter, and_assoc, Bool.not_eq_true']

theorem tiles_append : Tiles a (B1 ++ B2) e ↔ ∃ m, Tiles a B1 m ∧ Tiles m B2 e := by
  induction B1 generalizing a with
  | nil => exact ⟨fun h => ⟨a, rfl, h⟩, fun ⟨m, h1, h2⟩ => by rw [h1]; exact h2⟩
  | cons b B1 ih =>
    constructor
    · rintro ⟨h1, h2, h3⟩
      obtain ⟨m, h4, h5⟩ := ih.1 h3
      exact ⟨m, ⟨h1, h2, h4⟩, h5⟩
    · rintro ⟨m, ⟨h1, h2, h3⟩, h4⟩
      exact ⟨h1, h2, ih.2 ⟨m, h3, h4⟩⟩

/-- The row, taken apart at a block. -/
theorem tiles_split : Tiles a (B1 ++ b :: B2) e ↔
    Tiles a B1 b.addr ∧ 0 < b.size ∧ Tiles (b.addr + 8 * b.size) B2 e := by
  rw [tiles_append]
  constructor
  · rintro ⟨m, h1, h2, h3, h4⟩
    subst h2
    exact ⟨h1, h3, h4⟩
  · rintro ⟨h1, h2, h3⟩
    exact ⟨_, h1, rfl, h2, h3⟩

theorem Tiles.le (h : Tiles a B e) : a ≤ e := by
  induction B generalizing a with
  | nil => exact le_of_eq h
  | cons c B ih => exact le_trans (le_add_right _ _) (ih h.2.2)

theorem Tiles.mem (h : Tiles a B e) (hb : b ∈ B) :
    a ≤ b.addr ∧ 0 < b.size ∧ b.addr + 8 * b.size ≤ e := by
  induction B generalizing a with
  | nil => cases hb
  | cons c B ih =>
    obtain ⟨h1, h2, h3⟩ := h
    rcases mem_cons.1 hb with rfl | hb
    · subst h1
      exact ⟨le_rfl, h2, h3.le⟩
    · obtain ⟨h4, h5⟩ := ih h3 hb
      exact ⟨le_trans (le_add_right _ _) h4, h5⟩

/-- Each block ends where a later one starts, or before. -/
theorem Tiles.pairwise (h : Tiles a B e) : B.Pairwise fun b c => b.addr + 8 * b.size ≤ c.addr := by
  induction B generalizing a with
  | nil => exact .nil
  | cons b B ih =>
    refine .cons (fun c hc => ?_) (ih h.2.2)
    rw [h.1]
    exact (h.2.2.mem hc).1

/-- Two headers are the same or do not overlap. -/
def Sep (p q : ℕ) : Prop := q = p ∨ p + 8 ≤ q ∨ q + 8 ≤ p

/-- Two blocks are the same or do not overlap. -/
theorem Tiles.disjoint (h : Tiles a B e) (hb : b ∈ B) (hc : c ∈ B) :
    b = c ∨ b.addr + 8 * b.size ≤ c.addr ∨ c.addr + 8 * c.size ≤ b.addr := by
  obtain ⟨B1, B2, rfl⟩ := append_of_mem hb
  obtain ⟨h1, h2, h3⟩ := tiles_split.1 h
  rw [mem_append, mem_cons] at hc
  rcases hc with hc | rfl | hc
  · exact .inr (.inr (h1.mem hc).2.2)
  · exact .inl rfl
  · exact .inr (.inl (h3.mem hc).1)

theorem Tiles.sep (h : Tiles a B e) (hb : b ∈ B) (hc : c ∈ B) : Sep b.addr c.addr := by
  have h1 := (h.mem hb).2.1
  have h2 := (h.mem hc).2.1
  rcases h.disjoint hb hc with rfl | hd | hd
  · exact .inl rfl
  · exact .inr (.inl (by omega))
  · exact .inr (.inr (by omega))

theorem size_setPtr_sep {h : Heap} {p q v : ℕ} (hs : Sep p q) :
    (h.setPtr p v).size q = h.size q := size_setPtr (by rcases hs with h | h | h <;> omega)

theorem ptr_setSize_sep {h : Heap} {p q v : ℕ} (hs : Sep p q) :
    (h.setSize p v).ptr q = h.ptr q := ptr_setSize (by rcases hs with h | h | h <;> omega)

end Blocks

/-- No two neighbours are both free. -/
def Apart (B : List Block) : Prop :=
  (B.map Block.free).IsChain fun f g => ¬ (f = true ∧ g = true)

/-- **The invariant of the heap**, with the row of blocks. -/
structure Core (base start : ℕ) (h : Heap) (B : List Block) : Prop where
  tiles : Tiles start B h.brk
  small : h.brk < 2 ^ 32
  size : ∀ b ∈ B, h.size b.addr = b.size
  base_size : h.size base = 0
  linked : Linked h.ptr (base :: frees B) base
  freep : h.freep ∈ base :: frees B
  apart : Apart B

/-- `Core` but for `freep`, where free blocks may be neighbours. -/
structure Row (base start : ℕ) (h : Heap) (B : List Block) : Prop where
  tiles : Tiles start B h.brk
  small : h.brk < 2 ^ 32
  size : ∀ b ∈ B, h.size b.addr = b.size
  base_size : h.size base = 0
  linked : Linked h.ptr (base :: frees B) base

/-- The block `x` is joined with the next one of the list, if this is its neighbour. -/
def Heap.join (h : Heap) (x : ℕ) : Heap :=
  if plus x (h.size x) = h.ptr x then
    (h.setSize x ((h.size x + h.size (h.ptr x)) % 2 ^ 32)).setPtr x (h.ptr (h.ptr x))
  else h

section Heap

variable {base start : ℕ} {h : Heap} {B B1 B2 : List Block} {bp sz p : ℕ}
  {e n q v w : ℕ} {b : Block} {f : Bool}

theorem plus_eq (hlt : p + 8 * n < 2 ^ 32) : plus p n = p + 8 * n := mod_eq_of_lt hlt

/-- The list is sorted from `base` on. -/
theorem Tiles.sorted (hb : base + 8 ≤ start) (h : Tiles start B e) :
    (base :: frees B).Pairwise (· < ·) := by
  refine .cons (fun x hx => ?_) ?_
  · obtain ⟨b, hb', -, rfl⟩ := mem_frees.1 hx
    have := (h.mem hb').1
    omega
  · refine List.Pairwise.map _ (fun b c h => h) (List.Pairwise.filter _ ?_)
    refine (List.Pairwise.and_mem.1 h.pairwise).imp ?_
    rintro b c ⟨hb', -, hbc⟩
    have := (h.mem hb').2.1
    omega

theorem getLastD_max {a : ℕ} {l : List ℕ} (h : (a :: l).Pairwise (· < ·)) :
    ∀ x ∈ a :: l, x ≤ l.getLastD a := by
  induction l generalizing a with
  | nil =>
    intro x hx
    exact le_of_eq (mem_singleton.1 hx)
  | cons b l ih =>
    intro x hx
    rw [getLastD_cons]
    obtain ⟨h1, h2⟩ := pairwise_cons.1 h
    rcases mem_cons.1 hx with rfl | hx
    · exact (h1 b mem_cons_self).le.trans (ih h2 b mem_cons_self)
    · exact ih h2 x hx

/-- `q` is the address of a header. -/
def Node (base : ℕ) (B : List Block) (q : ℕ) : Prop := q = base ∨ ∃ b ∈ B, b.addr = q

theorem node_of_mem (hb : b ∈ B) : Node base B b.addr := .inr ⟨b, hb, rfl⟩

theorem node_of_mem_frees (hq : q ∈ base :: frees B) : Node base B q := by
  rcases mem_cons.1 hq with rfl | hq
  · exact .inl rfl
  · obtain ⟨b, hb, -, rfl⟩ := mem_frees.1 hq
    exact node_of_mem hb

theorem Tiles.sep_node (hb : base + 8 ≤ start) (h : Tiles start B e)
    (hp : Node base B p) (hq : Node base B q) : Sep p q := by
  rcases hp with rfl | ⟨b, hb', rfl⟩ <;> rcases hq with rfl | ⟨c, hc, rfl⟩
  · exact .inl rfl
  · have := (h.mem hc).1
    exact .inr (.inl (by omega))
  · have := (h.mem hb').1
    exact .inr (.inr (by omega))
  · exact h.sep hb' hc

/-- No other block of the row has its header at `bp`. -/
theorem Tiles.ne_of_mem (h : Tiles start (B1 ++ ⟨bp, sz, f⟩ :: B2) e)
    (hb : b ∈ B1 ∨ b ∈ B2) : b.addr ≠ bp := by
  obtain ⟨h1, h2, h3⟩ := tiles_split.1 h
  dsimp only at h1 h2 h3
  rcases hb with hb | hb
  · have := h1.mem hb
    omega
  · have := h3.mem hb
    omega

theorem Apart.left (h : Apart (B1 ++ B2)) : Apart B1 := by
  rw [Apart, map_append] at h
  exact h.left_of_append

/-- A row that is apart on both sides of a block. -/
theorem apart_split : Apart (B1 ++ b :: B2) ↔ Apart (B1 ++ [b]) ∧ Apart (b :: B2) := by
  simp only [Apart, map_append, map_cons, map_nil]
  exact isChain_split

/-- Whether a row is apart does not depend on where and how large the blocks are. -/
theorem Apart.congr (h : Apart B) (he : B1.map Block.free = B.map Block.free) : Apart B1 := by
  rw [Apart, he]
  exact h

/-- A live block between two rows. -/
theorem apart_live {A C : List Block} (h1 : Apart A) (h2 : Apart C)
    (hb : b.free = false) : Apart (A ++ b :: C) := by
  simp only [Apart, map_append, map_cons, hb]
  refine List.IsChain.append h1 (List.IsChain.cons h2 fun f _ hc => ?_) fun f _ g hg hc => ?_
  · cases hc.1
  · cases hg
    cases hc.2

/-- The last free block of a row, with the live ones behind it. -/
theorem getLastD_frees (base : ℕ) (B : List Block) : (∀ b ∈ B, b.free = false) ∨ ∃ A s L,
    B = A ++ ⟨(frees B).getLastD base, s, true⟩ :: L ∧ ∀ b ∈ L, b.free = false := by
  induction B using List.reverseRecOn with
  | nil => exact .inl nofun
  | append_singleton B b ih =>
    rw [frees_append]
    cases hf : b.free with
    | true =>
      rw [frees_cons_free hf, show frees [] = [] from rfl]
      refine .inr ⟨B, b.size, [], ?_, nofun⟩
      rw [getLastD_concat, ← hf]
    | false =>
      rw [frees_cons_live hf, show frees [] = [] from rfl, append_nil]
      have hlive {L : List Block} (h : ∀ c ∈ L, c.free = false) : ∀ c ∈ L ++ [b], c.free = false :=
        forall_mem_append.2 ⟨h, forall_mem_singleton.2 hf⟩
      rcases ih with h | ⟨A, s, L, hB, hL⟩
      · exact .inl (hlive h)
      · refine .inr ⟨A, s, L ++ [b], ?_, hlive hL⟩
        rw [← cons_append, ← append_assoc, ← hB]

/-- Live blocks before a row. -/
theorem apart_lives {L C : List Block} (hl : ∀ b ∈ L, b.free = false) (hc : Apart C) :
    Apart (L ++ C) := by
  induction L with
  | nil => exact hc
  | cons b L ih =>
    obtain ⟨hb, hl⟩ := forall_mem_cons.1 hl
    exact apart_live (A := []) .nil (ih hl) hb

theorem Row.core (hr : Row base start h B) (hp : p ∈ base :: frees B) (hap : Apart B) :
    Core base start { h with freep := p } B :=
  ⟨hr.tiles, hr.small, hr.size, hr.base_size, hr.linked, hp, hap⟩

theorem join_live (h : Heap) (x : ℕ) : (h.join x).live = h.live := by
  rw [Heap.join]
  split_ifs <;> rfl

/-- The same row, but for whether `bp` is free. -/
theorem exists_mem_row (g : Bool) (hb : b ∈ B1 ++ ⟨bp, sz, f⟩ :: B2) :
    ∃ b' ∈ B1 ++ ⟨bp, sz, g⟩ :: B2, b'.addr = b.addr ∧ b'.size = b.size := by
  rw [mem_append, mem_cons] at hb
  rcases hb with hb | rfl | hb
  · exact ⟨b, by simp [hb], rfl, rfl⟩
  · exact ⟨⟨bp, sz, g⟩, by simp, rfl, rfl⟩
  · exact ⟨b, by simp [hb], rfl, rfl⟩

/-! ### `free` -/

/-- What the invariant says around a live block. -/
theorem Core.around (hc : Core base start h (B1 ++ ⟨bp, sz, false⟩ :: B2)) :
    Linked h.ptr (base :: frees B1) ((frees B2).headD base) ∧ Linked h.ptr (frees B2) base := by
  have hl := hc.linked
  rw [frees_append, frees_cons_live rfl] at hl
  exact (linked_append (l := base :: frees B1)).1 hl

/-- No free block has `n` units, and `sbrk` refuses more memory. -/
def Refused (h : Heap) (B : List Block) (ok : ℕ → Bool) (n : ℕ) : Prop :=
  (∀ b ∈ B, b.free = true → b.size < n) ∧ ¬(ok h.brk = true ∧ h.brk + 8 * max n 4096 < 2 ^ 31)

/-- `malloc` gives out the block at `a`, of `n` units. -/
def Given (base start n : ℕ) (h : Heap) (B : List Block) (a : ℕ) (h' : Heap) : Prop :=
  ∃ B', Core base start h' B' ∧ h'.live = h.live ∧ h'.size a = n ∧
    ∀ q, q ∈ lives B' ↔ q = a ∨ q ∈ lives B

theorem setPtr_setPtr : (h.setPtr p v).setPtr p w = h.setPtr p w :=
  congrArg (fun m => { h with mem := m }) (update_idem ..)

theorem setPtr_comm (hne : p ≠ q) : (h.setPtr p v).setPtr q w = (h.setPtr q w).setPtr p v :=
  congrArg (fun m => { h with mem := m }) (update_comm hne ..)

theorem setSize_setPtr (hne : p ≠ q + 4) :
    (h.setPtr p v).setSize q w = (h.setSize q w).setPtr p v :=
  congrArg (fun m => { h with mem := m }) (update_comm hne ..)

/-- `bp` is linked behind `p`, and `p` is joined with it. -/
theorem joinPrev_eq (hs : p + 8 ≤ bp) : h.joinPrev bp p = (h.setPtr p bp).join p := by
  have hsize : (h.setPtr p bp).size p = h.size p := size_setPtr (by omega)
  have hptr : (h.setPtr p bp).ptr p = bp := ptr_setPtr.trans (if_pos rfl)
  rw [Heap.join, hptr, hsize, Heap.joinPrev]
  split_ifs
  · dsimp only
    rw [size_setPtr (by omega), ptr_setPtr, if_neg (by omega), ptr_setSize (by omega)]
    rw [setSize_setPtr (by omega), setPtr_setPtr]
  · rfl

/-- `bp` is put in the list behind `p`, and joined with the next block. -/
theorem joinNext_eq (hs : p + 8 ≤ bp) (hy : plus bp (h.size bp) = h.ptr p → bp + 8 ≤ h.ptr p) :
    (h.joinNext bp p).setPtr p bp = ((h.setPtr bp (h.ptr p)).setPtr p bp).join bp := by
  have hsize : ((h.setPtr bp (h.ptr p)).setPtr p bp).size bp = h.size bp := by
    rw [size_setPtr (by omega), size_setPtr (by omega)]
  have hptr : ((h.setPtr bp (h.ptr p)).setPtr p bp).ptr bp = h.ptr p := by
    rw [ptr_setPtr, if_neg (by omega), ptr_setPtr, if_pos rfl]
  rw [Heap.join, hptr, hsize, Heap.joinNext]
  split_ifs with ht
  · have hy := hy ht
    dsimp only
    rw [size_setPtr (by omega), size_setPtr (by omega), ptr_setPtr, if_neg (by omega),
      ptr_setPtr, if_neg (by omega), ptr_setSize (by omega : p ≠ bp + 4),
      ptr_setSize (by omega : h.ptr p ≠ bp + 4)]
    rw [setSize_setPtr (by omega), setSize_setPtr (by omega), setPtr_comm (by omega : p ≠ bp),
      setPtr_setPtr]
  · rfl

variable (hb : base + 8 ≤ start) {fuel x y : ℕ}

include hb

/-- The headers before `bp` and behind it. -/
theorem Tiles.around (h : Tiles start (B1 ++ ⟨bp, sz, f⟩ :: B2) e) :
    (∀ q, Node base B1 q → q + 8 ≤ bp) ∧ ∀ b ∈ B2, bp + 8 * sz ≤ b.addr := by
  obtain ⟨h1, -, h3⟩ := tiles_split.1 h
  refine ⟨fun q hq => ?_, fun b hb' => (h3.mem hb').1⟩
  rcases hq with rfl | ⟨b, hb', rfl⟩
  · exact hb.trans h1.le
  · have := h1.mem hb'
    dsimp only at this
    omega

/-- The first free block behind `bp` is its neighbour, or there is none there. -/
theorem Tiles.headD_frees (hs : start ≤ bp) (h : Tiles bp B e) : (frees B).headD base = bp ↔
      ∃ s B', B = ⟨bp, s, true⟩ :: B' := by
  cases B with
  | nil =>
    refine ⟨fun hc => ?_, fun ⟨s, B', hc⟩ => by cases hc⟩
    change base = bp at hc
    omega
  | cons b B =>
    obtain ⟨rfl, hsz, ht⟩ := h
    obtain ⟨a, s, f⟩ := b
    cases f with
    | true =>
      rw [frees_cons_free rfl]
      exact ⟨fun _ => ⟨s, B, rfl⟩, fun _ => rfl⟩
    | false =>
      rw [frees_cons_live rfl]
      refine ⟨fun hc => ?_, fun ⟨s, B', hc⟩ => by cases hc⟩
      dsimp only at hc ht hsz hs
      cases hB : frees B with
      | nil =>
        rw [hB] at hc
        change base = a at hc
        omega
      | cons x l =>
        rw [hB] at hc
        change x = a at hc
        obtain ⟨c, hcB, -, hx⟩ := mem_frees.1 (hB ▸ mem_cons_self : x ∈ frees B)
        have := (ht.mem hcB).1
        omega

/-- **`bp` is put in the list** behind the last free block before it. -/
theorem Core.link (hc : Core base start h (B1 ++ ⟨bp, sz, false⟩ :: B2))
    (hp : p = (frees B1).getLastD base) :
    Row base start ((h.setPtr bp (h.ptr p)).setPtr p bp) (B1 ++ ⟨bp, sz, true⟩ :: B2) := by
  obtain ⟨h1, hsz, h3⟩ := tiles_split.1 hc.tiles
  obtain ⟨hbefore, hbehind⟩ := hc.tiles.around hb
  obtain ⟨hl1, hl2⟩ := hc.around
  have hpbp := hbefore p (node_of_mem_frees (hp ▸ hl1.last.1))
  have hpnode : Node base (B1 ++ ⟨bp, sz, false⟩ :: B2) p := node_of_mem_frees <| by
    rw [frees_append, ← cons_append, hp]
    exact mem_append_left _ hl1.last.1
  have hbp : Node base (B1 ++ ⟨bp, sz, false⟩ :: B2) bp :=
    node_of_mem (b := ⟨bp, sz, false⟩) (by simp)
  have hsize : ∀ q, Node base (B1 ++ ⟨bp, sz, false⟩ :: B2) q →
      ((h.setPtr bp (h.ptr p)).setPtr p bp).size q = h.size q := fun q hq => by
    rw [size_setPtr_sep (hc.tiles.sep_node hb hpnode hq),
      size_setPtr_sep (hc.tiles.sep_node hb hbp hq)]
  have hptr : ∀ q, q ≠ p → q ≠ bp → ((h.setPtr bp (h.ptr p)).setPtr p bp).ptr q = h.ptr q :=
    fun q hq hq' => by rw [ptr_setPtr, if_neg hq, ptr_setPtr, if_neg hq']
  refine ⟨tiles_split.2 ⟨h1, hsz, h3⟩, hc.small, fun b hb' => ?_, ?_, ?_⟩
  · obtain ⟨b', hb', hba, hbs⟩ := exists_mem_row false hb'
    rw [← hba, ← hbs, hsize _ (node_of_mem hb'), hc.size b' hb']
  · rw [hsize base (.inl rfl), hc.base_size]
  · rw [frees_append, frees_cons_free rfl]
    refine (linked_append (l := base :: frees B1)).2 ⟨?_, ?_, ?_⟩
    · refine hl1.retarget ((h1.sorted hb).imp fun h => h.ne) ?_ fun x hx hne => ?_
      · exact ptr_setPtr.trans (if_pos hp.symm)
      · have := hbefore x (node_of_mem_frees hx)
        exact hptr x (hp ▸ hne) (by omega)
    · dsimp only
      rw [ptr_setPtr, if_neg (by omega), ptr_setPtr, if_pos rfl, hp]
      exact hl1.last.2
    · refine hl2.congr fun x hx => ?_
      obtain ⟨b, hb', -, rfl⟩ := mem_frees.1 hx
      have := hbehind b hb'
      dsimp only at hsz
      exact hptr b.addr (by omega) (by omega)

/-- **A free block is joined with the next one of the list**, if this is its neighbour. -/
theorem Row.join (hr : Row base start h (B1 ++ ⟨bp, sz, true⟩ :: B2)) (hap : Apart B2) :
    ∃ sz' ≥ sz, ∃ B', Row base start (h.join bp) (B1 ++ ⟨bp, sz', true⟩ :: B') ∧
      lives B' = lives B2 ∧ Apart (⟨bp, sz', true⟩ :: B') ∧
      ∀ c ∈ B2, c.free = true → ∃ b ∈ ⟨bp, sz', true⟩ :: B', b.free = true ∧ c.size ≤ b.size := by
  obtain ⟨h1, hsz, h3⟩ := tiles_split.1 hr.tiles
  obtain ⟨hbefore, hbehind⟩ := hr.tiles.around hb
  have hlink := hr.linked
  rw [frees_append, frees_cons_free rfl] at hlink
  obtain ⟨hl1, hnext, hl2⟩ := (linked_append (l := base :: frees B1)).1 hlink
  have hmem : (⟨bp, sz, true⟩ : Block) ∈ B1 ++ ⟨bp, sz, true⟩ :: B2 := by simp
  have hsize := hr.size _ hmem
  have hbound := hr.tiles.mem hmem
  have hsmall := hr.small
  dsimp only at hsize hbound h3 hsz hnext
  have htest : plus bp (h.size bp) = h.ptr bp ↔ ∃ s B', B2 = ⟨bp + 8 * sz, s, true⟩ :: B' := by
    rw [hsize, plus_eq (by omega), hnext, eq_comm]
    exact h3.headD_frees hb (by omega)
  rw [Heap.join]
  split_ifs with ht
  · obtain ⟨s, B', rfl⟩ := htest.1 ht
    have hsize' := hr.size ⟨bp + 8 * sz, s, true⟩ (by simp)
    have hbound' := hr.tiles.mem (b := ⟨bp + 8 * sz, s, true⟩) (by simp)
    obtain ⟨hnext', hl2⟩ := (frees_cons_free (b := ⟨bp + 8 * sz, s, true⟩) rfl) ▸ hl2
    dsimp only at hsize' hbound' hnext'
    rw [← ht, hsize, plus_eq (by omega), hsize', mod_eq_of_lt (by omega), hnext']
    set h' := (h.setSize bp (sz + s)).setPtr bp ((frees B').headD base) with hh'
    -- only the header of `bp` changes
    have hframe : ∀ q, q + 8 ≤ bp ∨ bp + 8 ≤ q → h'.size q = h.size q ∧ h'.ptr q = h.ptr q :=
      fun q hq => by
        rw [hh', size_setPtr (by omega), size_setSize, if_neg (by omega), ptr_setPtr,
          if_neg (by omega), ptr_setSize (by omega)]
        exact ⟨rfl, rfl⟩
    have hbehind' : ∀ b ∈ B', bp + 8 ≤ b.addr := fun b hb' => by
      have := hbehind b (mem_cons_of_mem _ hb')
      omega
    refine ⟨sz + s, by omega, B', ⟨tiles_split.2 ⟨h1, Nat.add_pos_left hsz s, ?_⟩, hsmall,
      fun b hb' => ?_, ?_, ?_⟩, (lives_cons_free rfl).symm, hap.congr rfl, fun c hc hf => ?_⟩
    · dsimp only
      rw [mul_add, ← add_assoc]
      exact h3.2.2
    · rw [mem_append, mem_cons] at hb'
      rcases hb' with hb' | rfl | hb'
      · rw [(hframe _ (.inl (hbefore _ (node_of_mem hb')))).1, hr.size b (by simp [hb'])]
      · dsimp only
        rw [hh', size_setPtr (by omega), size_setSize, if_pos rfl]
      · rw [(hframe _ (.inr (hbehind' b hb'))).1, hr.size b (by simp [hb'])]
    · rw [(hframe base (.inl (hbefore base (.inl rfl)))).1, hr.base_size]
    · rw [frees_append, frees_cons_free rfl]
      refine (linked_append (l := base :: frees B1)).2 ⟨?_, ptr_setPtr.trans (if_pos rfl), ?_⟩
      · exact hl1.congr fun q hq => (hframe q (.inl (hbefore q (node_of_mem_frees hq)))).2
      · refine hl2.congr fun q hq => ?_
        obtain ⟨b, hb', -, rfl⟩ := mem_frees.1 hq
        exact (hframe _ (.inr (hbehind' b hb'))).2
    · rcases mem_cons.1 hc with rfl | hc
      · exact ⟨_, mem_cons_self, rfl, le_add_left s sz⟩
      · exact ⟨c, mem_cons_of_mem _ hc, hf, le_rfl⟩
  · refine ⟨sz, le_rfl, B2, hr, rfl, List.IsChain.cons hap fun g hg hc => ht (htest.2 ?_),
      fun c hc hf => ⟨c, mem_cons_of_mem _ hc, hf, le_rfl⟩⟩
    cases B2 with
    | nil => cases hg
    | cons c C =>
      obtain ⟨hca, -⟩ := h3
      cases hg
      exact ⟨c.size, C, by rw [← hca, ← hc.2]⟩

/-- **The last free block before `bp` is joined with it**, if there is one and it is its
neighbour. -/
theorem Row.join_last (hr : Row base start h (B1 ++ ⟨bp, sz, true⟩ :: B2)) (h1 : Apart B1)
    (h2 : Apart (⟨bp, sz, true⟩ :: B2)) (hp : p = (frees B1).getLastD base) :
    ∃ B', Core base start { h.join p with freep := p } B' ∧ lives B' = lives B1 ++ lives B2 ∧
      ∃ b ∈ B', b.free = true ∧ sz ≤ b.size := by
  rcases getLastD_frees base B1 with hB1 | ⟨A, s, L, hB1, hL⟩
  · -- `p` is `base`, which has no units and is not joined
    have hnil : frees B1 = [] := by simpa [frees] using hB1
    obtain rfl : p = base := by rw [hp, hnil, getLastD_nil]
    have hlink := hr.linked
    rw [frees_append, hnil, nil_append, frees_cons_free rfl] at hlink
    have hbp := (hr.tiles.around hb).1 p (.inl rfl)
    have hbound := hr.tiles.mem (b := ⟨bp, sz, true⟩) (by simp)
    have hsmall := hr.small
    have hjoin : h.join p = h := by
      rw [Heap.join, hr.base_size, hlink.1, plus_eq (by dsimp only at hbound; omega)]
      exact if_neg (by simp only [headD_cons]; omega)
    rw [hjoin]
    refine ⟨_, hr.core mem_cons_self (apart_lives hB1 h2), ?_, _, mem_append_right _ mem_cons_self,
      rfl, le_rfl⟩
    rw [lives_append, lives_cons_free rfl]
  · rw [← hp] at hB1
    subst hB1
    rw [append_assoc, cons_append] at hr
    obtain ⟨s', -, B', hr', hlives, hap, hbig⟩ := hr.join hb (apart_lives hL h2)
    obtain ⟨b, hbm, hbf, hbs⟩ := hbig _ (mem_append_right L mem_cons_self) rfl
    refine ⟨_, hr'.core ?_ (apart_split.2 ⟨(apart_split.1 h1).1.congr (by simp), hap⟩), ?_, b,
      mem_append_right A hbm, hbf, hbs⟩
    · rw [frees_append, frees_cons_free rfl]
      simp
    · simp only [lives_append, lives_cons_free, hlives, append_assoc]

/-- **`free` gives a live block back.**  It returns after one round of its loop at most, and the
block is part of a free one. -/
theorem Core.free (hc : Core base start h (B1 ++ ⟨bp, sz, false⟩ :: B2))
    (hfuel : (frees B1).length + (frees B2).length < fuel) :
    ∃ h' B', h.free fuel (bp + 8) = some h' ∧ Core base start h' B' ∧
      lives B' = lives B1 ++ lives B2 ∧ (∃ b ∈ B', b.free = true ∧ sz ≤ b.size) ∧
      h'.live = h.live := by
  obtain ⟨h1, hsz, h3⟩ := tiles_split.1 hc.tiles
  dsimp only at h1 hsz h3
  have hbpmem : (⟨bp, sz, false⟩ : Block) ∈ B1 ++ ⟨bp, sz, false⟩ :: B2 := by simp
  have hbound := hc.tiles.mem hbpmem
  dsimp only at hbound
  have hsmall := hc.small
  have hsort := hc.tiles.sorted hb
  have hlink := hc.linked
  have hfreep := hc.freep
  have hfr : frees (B1 ++ ⟨bp, sz, false⟩ :: B2) = frees B1 ++ frees B2 := by
    rw [frees_append, frees_cons_live rfl]
  rw [hfr] at hsort hlink hfreep
  obtain ⟨hl1, -⟩ := hc.around
  obtain ⟨hbefore, hbehind⟩ := hc.tiles.around hb
  have hbefore : ∀ x ∈ base :: frees B1, x + 8 ≤ bp := fun x hx =>
    hbefore x (node_of_mem_frees hx)
  have hbehind : ∀ x ∈ frees B2, bp < x := fun x hx => by
    obtain ⟨b, hb', -, rfl⟩ := mem_frees.1 hx
    have := hbehind b hb'
    omega
  have hlast := hbefore _ hl1.last.1
  have hloop : h.freeLoop bp fuel h.freep = some ((frees B1).getLastD base) := by
    refine freeLoop_eq hsort hlink hfreep (mem_append_left (frees B2) hl1.last.1)
      (by omega) (fun hmem => ?_) (fun x hx hlt => ?_) ?_
    · rcases mem_append.1 (show bp ∈ (base :: frees B1) ++ frees B2 from hmem) with hm | hm
      · have := hbefore bp hm
        omega
      · exact lt_irrefl _ (hbehind bp hm)
    · rcases mem_append.1 (show x ∈ (base :: frees B1) ++ frees B2 from hx) with hm | hm
      · exact getLastD_max (h1.sorted hb) x hm
      · exact absurd hlt (lt_asymm (hbehind x hm))
    · rw [length_append]
      exact hfuel
  have hbp : (bp + 8 + 2 ^ 32 - 8) % 2 ^ 32 = bp := by omega
  simp only [Heap.free, sizeofHeader]
  rw [hbp, hloop, Option.map_some, joinPrev_eq hlast, joinNext_eq hlast fun ht => ?_]
  · obtain ⟨sz', hle, B2', hr, hlives, hap, -⟩ :=
      (hc.link hb rfl).join hb (apart_split.1 hc.apart).2.tail
    obtain ⟨B', hc', hlives', b, hbm, hbf, hbs⟩ := hr.join_last hb hc.apart.left hap rfl
    refine ⟨_, B', rfl, hc', by rw [hlives', hlives], ⟨b, hbm, hbf, hle.trans hbs⟩, ?_⟩
    exact (join_live ..).trans (join_live ..)
  · rw [← ht, hc.size _ hbpmem, plus_eq (by dsimp only; omega)]
    dsimp only
    omega

/-! ### `malloc` -/

variable (hc : Core base start h (B1 ++ ⟨x, sz, true⟩ :: B2))
  (hy : y ∈ base :: frees (B1 ++ ⟨x, sz, true⟩ :: B2))

include hc hy

/-- `malloc` takes all of the block `x` behind `y`. -/
theorem Core.takeAll (hptr : h.ptr y = x) :
    Core base start { h.setPtr y (h.ptr x) with freep := y } (B1 ++ ⟨x, sz, false⟩ :: B2) := by
  have hsepy : ∀ q, Node base (B1 ++ ⟨x, sz, true⟩ :: B2) q → Sep y q := fun q hq =>
    hc.tiles.sep_node hb (node_of_mem_frees hy) hq
  have hnodup : (base :: frees (B1 ++ ⟨x, sz, true⟩ :: B2)).Nodup :=
    (hc.tiles.sorted hb).imp fun h => h.ne
  have hlink := hc.linked
  have hfr : frees (B1 ++ ⟨x, sz, true⟩ :: B2) = frees B1 ++ x :: frees B2 := by
    rw [frees_append, frees_cons_free rfl]
  have hfrees : frees (B1 ++ ⟨x, sz, false⟩ :: B2) = frees B1 ++ frees B2 := by
    rw [frees_append, frees_cons_live rfl]
  obtain ⟨h1, hsz, h3⟩ := tiles_split.1 hc.tiles
  rw [hfr] at hlink hnodup hy
  obtain ⟨hl1, hxnext, hl2⟩ := (linked_append (l := base :: frees B1)).1 hlink
  obtain rfl : y = (frees B1).getLastD base := by
    refine hlink.next_inj hnodup hy (mem_append_left (x :: frees B2) hl1.last.1) ?_
    exact hptr.trans hl1.last.2.symm
  have hy2 : ∀ q ∈ frees B2, q ≠ (frees B1).getLastD base := fun q hq hcq => by
    obtain ⟨-, -, hd⟩ := nodup_append.1
      (show ((base :: frees B1) ++ x :: frees B2).Nodup from hnodup)
    exact hd _ hl1.last.1 _ (mem_cons_of_mem x hq) hcq.symm
  refine ⟨tiles_split.2 ⟨h1, hsz, h3⟩, hc.small, fun b hb' => ?_, ?_, ?_, ?_, ?_⟩
  · obtain ⟨b', hb', hba, hbs⟩ := exists_mem_row true hb'
    rw [← hba, ← hbs]
    exact (size_setPtr_sep (hsepy _ (node_of_mem hb'))).trans (hc.size b' hb')
  · exact (size_setPtr_sep (hsepy base (.inl rfl))).trans hc.base_size
  · rw [hfrees]
    refine (linked_append (l := base :: frees B1)).2 ⟨?_, ?_⟩
    · refine hl1.retarget ((h1.sorted hb).imp fun h => h.ne) ?_ fun q _ hq => ?_
      · exact (ptr_setPtr.trans (if_pos rfl)).trans hxnext
      · exact ptr_setPtr.trans (if_neg hq)
    · exact hl2.congr fun q hq => ptr_setPtr.trans (if_neg (hy2 q hq))
  · rw [hfrees]
    exact mem_append_left (frees B2) hl1.last.1
  · exact apart_live hc.apart.left (apart_split.1 hc.apart).2.tail rfl

/-- `malloc` takes `n` units from the end of the block `x`. -/
theorem Core.takeEnd (hn : 0 < n) (hlt : n < sz) :
    Core base start
      { (h.setSize x (sz - n)).setSize (x + 8 * (sz - n)) n with freep := y }
      (B1 ++ ⟨x, sz - n, true⟩ :: ⟨x + 8 * (sz - n), n, false⟩ :: B2) := by
  have hxnode : Node base (B1 ++ ⟨x, sz, true⟩ :: B2) x :=
    node_of_mem (b := ⟨x, sz, true⟩) (by simp)
  obtain ⟨h1, -, h3⟩ := tiles_split.1 hc.tiles
  have hbound := (hc.tiles.mem (b := ⟨x, sz, true⟩) (by simp)).1
  dsimp only at h1 h3 hbound
  have hsepr : ∀ q, Node base (B1 ++ ⟨x, sz, true⟩ :: B2) q →
      Sep (x + 8 * (sz - n)) q ∧ q ≠ x + 8 * (sz - n) := fun q hq => by
    have hcases : q + 8 ≤ x ∨ q = x ∨ x + 8 * sz ≤ q := by
      rcases hq with rfl | ⟨b, hb', rfl⟩
      · exact .inl (by omega)
      · rw [mem_append, mem_cons] at hb'
        rcases hb' with hb' | rfl | hb'
        · have := h1.mem hb'
          exact .inl (by omega)
        · exact .inr (.inl rfl)
        · exact .inr (.inr (h3.mem hb').1)
    unfold Sep
    omega
  have hptr : ∀ q, Node base (B1 ++ ⟨x, sz, true⟩ :: B2) q →
      ((h.setSize x (sz - n)).setSize (x + 8 * (sz - n)) n).ptr q = h.ptr q := fun q hq => by
    rw [ptr_setSize_sep (hsepr q hq).1, ptr_setSize_sep (hc.tiles.sep_node hb hxnode hq)]
  have hsize : ∀ q, Node base (B1 ++ ⟨x, sz, true⟩ :: B2) q → q ≠ x →
      ((h.setSize x (sz - n)).setSize (x + 8 * (sz - n)) n).size q = h.size q := fun q hq hne => by
    rw [size_setSize, if_neg (hsepr q hq).2, size_setSize, if_neg hne]
  have hfrees : frees (B1 ++ ⟨x, sz - n, true⟩ :: ⟨x + 8 * (sz - n), n, false⟩ :: B2) =
      frees (B1 ++ ⟨x, sz, true⟩ :: B2) := by
    rw [frees_append, frees_cons_free rfl, frees_cons_live rfl, frees_append, frees_cons_free rfl]
  refine ⟨?_, hc.small, fun b hb' => ?_, ?_, ?_, ?_, ?_⟩
  · refine tiles_split.2 ⟨h1, by dsimp only; omega, rfl, hn, ?_⟩
    dsimp only
    rw [show x + 8 * (sz - n) + 8 * n = x + 8 * sz by omega]
    exact h3
  · rw [mem_append, mem_cons, mem_cons] at hb'
    rcases hb' with hb' | rfl | rfl | hb'
    · have hm : b ∈ B1 ++ ⟨x, sz, true⟩ :: B2 := mem_append_left _ hb'
      exact (hsize _ (node_of_mem hm) (hc.tiles.ne_of_mem (.inl hb'))).trans (hc.size b hm)
    · refine size_setSize.trans ((if_neg (hsepr x hxnode).2).trans ?_)
      exact size_setSize.trans (if_pos rfl)
    · exact size_setSize.trans (if_pos rfl)
    · have hm : b ∈ B1 ++ ⟨x, sz, true⟩ :: B2 :=
        mem_append_right _ (mem_cons_of_mem _ hb')
      exact (hsize _ (node_of_mem hm) (hc.tiles.ne_of_mem (.inr hb'))).trans (hc.size b hm)
  · exact (hsize base (.inl rfl) (by omega)).trans hc.base_size
  · rw [hfrees]
    exact hc.linked.congr fun q hq => hptr q (node_of_mem_frees hq)
  · rw [hfrees]
    exact hy
  · obtain ⟨ha1, ha2⟩ := apart_split.1 hc.apart
    have hap := apart_live (A := B1 ++ [⟨x, sz - n, true⟩]) (b := ⟨x + 8 * (sz - n), n, false⟩)
      (ha1.congr (by simp)) ha2.tail rfl
    rwa [append_assoc] at hap

omit hc hy

/-- **`malloc` takes a live block from a free one.** -/
theorem Core.take (hc : Core base start h B) (hn : 0 < n)
    (hy : y ∈ base :: frees B) (hx : x ∈ frees B) (hptr : h.ptr y = x) (hsize : n ≤ h.size x) :
    ∃ r h' B', h.take n y x = (r + 8, h') ∧ Core base start h' B' ∧
      (∀ q, q ∈ lives B' ↔ q = r ∨ q ∈ lives B) ∧ h'.size r = n ∧ h'.live = h.live := by
  obtain ⟨⟨x, sz, f⟩, hxB, hf, rfl⟩ := mem_frees.1 hx
  obtain rfl : f = true := hf
  dsimp only at hptr hsize ⊢
  have hxsize : h.size x = sz := hc.size _ hxB
  have hxbound := hc.tiles.mem hxB
  dsimp only at hxbound
  have hsmall := hc.small
  obtain ⟨B1, B2, rfl⟩ := append_of_mem hxB
  rw [hxsize] at hsize
  unfold Heap.take
  split_ifs with htest
  · obtain rfl : sz = n := hxsize.symm.trans htest
    have hc' := hc.takeAll hb hy hptr
    rw [show plus x 1 = x + 8 from plus_eq (by omega)]
    refine ⟨x, _, _, rfl, hc', fun q => ?_, hc'.size ⟨x, sz, false⟩ (by simp), rfl⟩
    rw [lives_append, lives_cons_live rfl, lives_append, lives_cons_free rfl]
    simp only [mem_append, mem_cons]
    tauto
  · rw [hxsize] at htest
    have hlt : n < sz := lt_of_le_of_ne hsize (Ne.symm htest)
    have hc' := hc.takeEnd hb hy hn hlt
    have hsize1 : (h.setSize x (sz - n)).size x = sz - n := size_setSize.trans (if_pos rfl)
    dsimp only
    rw [hxsize, hsize1, show plus x (sz - n) = x + 8 * (sz - n) from plus_eq (by omega),
      show plus (x + 8 * (sz - n)) 1 = x + 8 * (sz - n) + 8 from plus_eq (by omega)]
    refine ⟨x + 8 * (sz - n), _, _, rfl, hc', fun q => ?_, ?_, rfl⟩
    · rw [lives_append, lives_cons_free rfl, lives_cons_live rfl, lives_append, lives_cons_free rfl]
      simp only [mem_append, mem_cons]
      tauto
    · exact hc'.size ⟨x + 8 * (sz - n), n, false⟩ (by simp)

/-- The break has moved up: the new memory is a block at the end of the row. -/
theorem Core.extend (hc : Core base start h B) {nu : ℕ} (hnu : 0 < nu)
    (hsmall : h.brk + 8 * nu < 2 ^ 32) :
    Core base start ({ h with brk := h.brk + 8 * nu }.setSize h.brk nu)
      (B ++ [⟨h.brk, nu, false⟩]) := by
  have hnode : ∀ q, Node base B q → Sep h.brk q ∧ q ≠ h.brk := fun q hq => by
    have hlt : q + 8 ≤ h.brk := by
      rcases hq with rfl | ⟨b, hb', rfl⟩
      · exact hb.trans hc.tiles.le
      · have := hc.tiles.mem hb'
        omega
    unfold Sep
    omega
  have hfrees : frees (B ++ [⟨h.brk, nu, false⟩]) = frees B := by
    rw [frees_append, frees_cons_live rfl]
    exact append_nil _
  have hsize : ∀ q, Node base B q →
      ({ h with brk := h.brk + 8 * nu }.setSize h.brk nu).size q = h.size q := fun q hq =>
    size_setSize.trans (if_neg (hnode q hq).2)
  refine ⟨tiles_split.2 ⟨hc.tiles, hnu, rfl⟩, hsmall, fun b hb' => ?_, ?_, ?_, ?_, ?_⟩
  · rw [mem_append, mem_singleton] at hb'
    rcases hb' with hb' | rfl
    · exact (hsize _ (node_of_mem hb')).trans (hc.size b hb')
    · exact size_setSize.trans (if_pos rfl)
  · exact (hsize base (.inl rfl)).trans hc.base_size
  · rw [hfrees]
    exact hc.linked.congr fun q hq => ptr_setSize_sep (hnode q (node_of_mem_frees hq)).1
  · rw [hfrees]
    exact hc.freep
  · exact apart_live hc.apart .nil rfl

/-- **`morecore` adds a free block** that is large enough, or `sbrk` refuses. -/
theorem Core.morecore (hc : Core base start h B)
    (hn : n < 2 ^ 28) (ok : ℕ → Bool) (hfuel : (frees B).length < fuel) :
    ¬(ok h.brk = true ∧ h.brk + 8 * max n 4096 < 2 ^ 31) ∧ h.morecore fuel ok n = some (0, h) ∨
    (ok h.brk = true ∧ h.brk + 8 * max n 4096 < 2 ^ 31) ∧
    ∃ h' B', h.morecore fuel ok n = some (h'.freep, h') ∧ Core base start h' B' ∧
      lives B' = lives B ∧ (∃ b ∈ B', b.free = true ∧ n ≤ b.size) ∧ h'.live = h.live := by
  obtain ⟨nu, hnu⟩ : ∃ nu, nu = max n 4096 := ⟨_, rfl⟩
  have hif : (if n < 4096 then 4096 else n) = nu := by
    split_ifs <;> omega
  have hbounds : n ≤ nu ∧ 0 < nu ∧ nu < 2 ^ 28 := by omega
  have hmul : nu * 8 % 2 ^ 32 = 8 * nu := by omega
  simp only [Heap.morecore, sizeofHeader]
  rw [hif, hmul, Heap.sbrk, if_pos (by omega), ← hnu]
  by_cases hok : ok h.brk = true ∧ h.brk + 8 * nu < 2 ^ 31
  · have hbrk := hok.2
    have hc' := hc.extend hb hbounds.2.1 (by omega)
    obtain ⟨h', B', hfree, hcore, hlives, ⟨b, hbB, hbf, hbs⟩, hlive⟩ := hc'.free hb hfuel
    refine .inr ⟨hok, h', B', ?_, hcore, by rw [hlives]; exact append_nil _,
      ⟨b, hbB, hbf, hbounds.1.trans hbs⟩, hlive⟩
    rw [if_pos hok]
    dsimp only
    rw [show plus h.brk 1 = h.brk + 8 from plus_eq (by omega), hfree]
    rfl
  · rw [if_neg hok]
    exact .inl ⟨hok, rfl⟩

/-- The list, from `freep` on. -/
theorem Core.rotate (hc : Core base start h B) :
    ∃ W, Linked h.ptr (h.freep :: W) h.freep ∧ (h.freep :: W).Nodup ∧
      (∀ x, x ∈ h.freep :: W ↔ x ∈ base :: frees B) ∧ W.length = (frees B).length := by
  obtain ⟨N1, N2, hN⟩ := append_of_mem hc.freep
  have hperm : (h.freep :: (N2 ++ N1)).Perm (base :: frees B) := by
    rw [hN]
    exact (perm_append_comm : (h.freep :: N2 ++ N1).Perm (N1 ++ h.freep :: N2))
  refine ⟨N2 ++ N1, ?_, hperm.nodup_iff.2 ((hc.tiles.sorted hb).imp fun h => h.ne),
    fun x => hperm.mem_iff, succ.inj hperm.length_eq⟩
  refine Linked.rotate (c := base) ?_
  rw [← hN]
  exact hc.linked

/-- The loop of `malloc`, where a free block is large enough. -/
theorem Core.search (hc : Core base start h B) (hn : 0 < n) (ok : ℕ → Bool)
    (hex : ∃ b ∈ B, b.free = true ∧ n ≤ b.size) (hfuel : (frees B).length < fuel) :
    ∃ a h', Heap.mallocLoop ok n fuel h.freep (h.ptr h.freep) h = some (a + 8, h') ∧
      Given base start n h B a h' := by
  obtain ⟨W, hlink, hnodup, hmem, hlen⟩ := hc.rotate hb
  obtain ⟨b, hbB, hbf, hbs⟩ := hex
  obtain ⟨y, hy, x, hx, hptr, hsize, hloop⟩ := mallocLoop_search ok hlink hnodup
    ⟨b.addr, (hmem _).2 (mem_cons_of_mem _ (mem_frees.2 ⟨b, hbB, hbf, rfl⟩)),
      (hc.size b hbB).symm ▸ hbs⟩
  have hxfree : x ∈ frees B := by
    rcases mem_cons.1 ((hmem x).1 hx) with rfl | hx
    · rw [hc.base_size] at hsize
      omega
    · exact hx
  obtain ⟨a, h', B', htake, hcore, hlives, ha, hlive⟩ :=
    hc.take hb hn ((hmem y).1 hy) hxfree hptr hsize
  refine ⟨a, h', ?_, B', hcore, hlive, ha, hlives⟩
  rw [hloop fuel (by omega), htake]

theorem Core.freep_ne_zero (hpos : 0 < base) (hc : Core base start h B) : h.freep ≠ 0 := by
  rcases mem_cons.1 hc.freep with hf | hf
  · omega
  · obtain ⟨b, hbB, -, hba⟩ := mem_frees.1 hf
    have := (hc.tiles.mem hbB).1
    omega

/-- The list from `freep` on, where no free block is large enough. -/
theorem Core.rotate_small (hc : Core base start h B) (hn : 0 < n)
    (hno : ∀ b ∈ B, b.free = true → b.size < n) :
    ∃ W, Linked h.ptr (h.freep :: W) h.freep ∧ (∀ a ∈ W, h.size a < n ∧ a ≠ h.freep) ∧
      h.size h.freep < n ∧ W.length = (frees B).length := by
  obtain ⟨W, hlink, hnodup, hmem, hlen⟩ := hc.rotate hb
  have hsmall : ∀ x ∈ h.freep :: W, h.size x < n := fun x hx => by
    rcases mem_cons.1 ((hmem x).1 hx) with rfl | hx
    · rw [hc.base_size]
      exact hn
    · obtain ⟨b, hbB, hbf, rfl⟩ := mem_frees.1 hx
      rw [hc.size b hbB]
      exact hno b hbB hbf
  refine ⟨W, hlink, fun a ha => ⟨hsmall a (mem_cons_of_mem _ ha), fun hcf => ?_⟩,
    hsmall _ mem_cons_self, hlen⟩
  exact (nodup_cons.1 hnodup).1 (hcf ▸ ha)

/-- **The loop of `malloc` returns**: with 0 if no free block is large enough and `sbrk` refuses,
and otherwise with a block. -/
theorem Core.mallocLoop (hpos : 0 < base) (hc : Core base start h B)
    (hn : 0 < n) (hn' : n < 2 ^ 28) (ok : ℕ → Bool) :
    ∃ N, ∀ fuel ≥ N,
      Refused h B ok n ∧
        Heap.mallocLoop ok n fuel h.freep (h.ptr h.freep) h = some (0, h) ∨
      ¬Refused h B ok n ∧ ∃ a h',
        Heap.mallocLoop ok n fuel h.freep (h.ptr h.freep) h = some (a + 8, h') ∧
        Given base start n h B a h' := by
  by_cases hex : ∃ b ∈ B, b.free = true ∧ n ≤ b.size
  · refine ⟨(frees B).length + 1, fun fuel hfuel => .inr ⟨?_, hc.search hb hn ok hex hfuel⟩⟩
    rintro ⟨hno, -⟩
    obtain ⟨b, hbB, hbf, hbs⟩ := hex
    exact not_lt.2 hbs (hno b hbB hbf)
  have hno : ∀ b ∈ B, b.free = true → b.size < n := fun b hbB hbf =>
    Nat.lt_of_not_le fun hle => hex ⟨b, hbB, hbf, hle⟩
  obtain ⟨W, hlink, hW, hfreep, hlen⟩ := hc.rotate_small hb hn hno
  have hnone := fun fuel => mallocLoop_none ok fuel hlink hW hfreep
  rcases hc.morecore hb hn' ok (lt_succ_self _) with
    ⟨href, hmore⟩ | ⟨hok, h', B', hmore, hc', hlives, hex', hlive⟩
  · refine ⟨(frees B).length + 1 + W.length + 1, fun fuel hfuel => .inl ⟨⟨hno, href⟩, ?_⟩⟩
    obtain ⟨k, rfl⟩ : ∃ k, fuel = k + W.length + 1 := ⟨fuel - W.length - 1, by omega⟩
    rw [hnone k, morecore_mono hmore (by omega)]
    rfl
  · refine ⟨(frees B).length + 1 + ((frees B').length + 1) + W.length + 1, fun fuel hfuel =>
      .inr ⟨fun hr => hr.2 hok, ?_⟩⟩
    obtain ⟨k, rfl⟩ : ∃ k, fuel = k + W.length + 1 := ⟨fuel - W.length - 1, by omega⟩
    obtain ⟨a, h'', hloop, B'', hc'', hlive'', ha, hres⟩ := hc'.search hb hn ok hex'
      (show (frees B').length < k by omega)
    refine ⟨a, h'', ?_, B'', hc'', hlive''.trans hlive, ha, by rwa [hlives] at hres⟩
    rw [hnone k, morecore_mono hmore (by omega)]
    dsimp only
    rw [if_neg (hc'.freep_ne_zero hb hpos)]
    exact hloop

/-! ### Sequences of calls -/

omit hb

/-- **The invariant between calls**: nothing has been allocated yet, or the heap is a row of blocks
of which the live ones are those that the program holds. -/
def Inv (base start : ℕ) (h : Heap) : Prop :=
  h.freep = 0 ∧ h.brk = start ∧ (∀ a, h.live a = false) ∨
    ∃ B, Core base start h B ∧ ∀ a, h.live a = true ↔ ∃ q ∈ lives B, q + 8 = a

/-- The first call of `malloc` sets up the list. -/
theorem core_base (hs : start < 2 ^ 32) (hbrk : h.brk = start) :
    Core base start { (h.setPtr base base).setSize base 0 with freep := base } [] := by
  refine ⟨hbrk.symm, by rw [← hbrk] at hs; exact hs, fun b hb' => (by cases hb'), ?_, ⟨?_, trivial⟩,
    mem_cons_self, .nil⟩
  · exact size_setSize.trans (if_pos rfl)
  · exact (ptr_setSize (by omega)).trans (ptr_setPtr.trans (if_pos rfl))

theorem units_bounds {nbytes : ℕ} (hn : nbytes ≤ 2 ^ 31 - 16) :
    0 < Heap.units nbytes ∧ Heap.units nbytes < 2 ^ 28 ∧ nbytes ≤ 8 * (Heap.units nbytes - 1) := by
  simp only [Heap.units, sizeofHeader]
  omega

include hb

/-- `malloc` sets up the list if there is none. -/
theorem Inv.set_up (hpos : 0 < base) (hs : start < 2 ^ 32)
    (hi : Inv base start h) : ∃ h1 B, (h1 = if h.freep = 0 then
      { (h.setPtr base base).setSize base 0 with freep := base } else h) ∧ h1.brk = h.brk ∧
      Core base start h1 B ∧ ∀ a, h1.live a = true ↔ ∃ q ∈ lives B, q + 8 = a := by
  rcases hi with ⟨hf, hbrk, hlive⟩ | ⟨B, hc, hlive⟩
  · refine ⟨_, [], rfl, ?_, ?_, fun a => ?_⟩
    · rw [if_pos hf]
      rfl
    · rw [if_pos hf]
      exact core_base hs hbrk
    · rw [if_pos hf]
      change h.live a = true ↔ _
      rw [hlive a]
      simp [lives]
  · refine ⟨h, B, ?_, rfl, hc, hlive⟩
    rw [if_neg (hc.freep_ne_zero hb hpos)]

/-- **`malloc` returns**, with 0 or with a new block that has room for `nbytes`. -/
theorem Inv.malloc (hpos : 0 < base) (hs : start < 2 ^ 32)
    (hi : Inv base start h) {nbytes : ℕ} (hn : nbytes ≤ 2 ^ 31 - 16) (ok : ℕ → Bool) :
    ∃ N, ∀ fuel ≥ N, ∃ r h', h.malloc base fuel ok nbytes = some (r, h') ∧
      Inv base start (if r = 0 then h' else { h' with live := update h'.live r true }) ∧
      (r ≠ 0 → nbytes ≤ 8 * (h'.size (r - 8) - 1) ∧ r + 8 * (h'.size (r - 8) - 1) ≤ h'.brk) := by
  obtain ⟨hu1, hu2, hu3⟩ := units_bounds hn
  obtain ⟨h1, B, hh1, -, hc, hlive⟩ := hi.set_up hb hpos hs
  obtain ⟨N, hN⟩ := hc.mallocLoop hb hpos hu1 hu2 ok
  refine ⟨N, fun fuel hfuel => ?_⟩
  simp only [Heap.malloc, ← hh1]
  rcases hN fuel hfuel with ⟨-, hloop⟩ | ⟨-, a, h', hloop, B', hc', hlive', ha, hl⟩
  · refine ⟨0, h1, hloop, ?_, fun hr => absurd rfl hr⟩
    rw [if_pos rfl]
    exact .inr ⟨B, hc, hlive⟩
  · refine ⟨a + 8, h', hloop, ?_, fun _ => ?_⟩
    · rw [if_neg (by omega)]
      refine .inr ⟨B', ⟨hc'.tiles, hc'.small, hc'.size, hc'.base_size, hc'.linked, hc'.freep,
        hc'.apart⟩, fun x => ?_⟩
      change update h'.live (a + 8) true x = true ↔ _
      rw [update_apply]
      split_ifs with hx
      · exact ⟨fun _ => ⟨a, (hl a).2 (.inl rfl), hx.symm⟩, fun _ => rfl⟩
      · rw [hlive', hlive x]
        constructor
        · rintro ⟨q, hq, rfl⟩
          exact ⟨q, (hl q).2 (.inr hq), rfl⟩
        · rintro ⟨q, hq, rfl⟩
          rcases (hl q).1 hq with rfl | hq
          · exact absurd rfl hx
          · exact ⟨q, hq, rfl⟩
    · obtain ⟨b, hbB, -, rfl⟩ := mem_lives.1 ((hl a).2 (.inl rfl))
      have htile := hc'.tiles.mem hbB
      have hsize := hc'.size b hbB
      rw [Nat.add_sub_cancel, ha]
      omega

/-- **`free` returns.** -/
theorem Inv.free (hi : Inv base start h) {ap : ℕ} (hap : h.live ap = true) :
    ∃ N, ∀ fuel ≥ N, ∃ h', h.free fuel ap = some h' ∧
      Inv base start { h' with live := update h'.live ap false } := by
  rcases hi with ⟨-, -, hlive⟩ | ⟨B, hc, hlive⟩
  · rw [hlive ap] at hap
    cases hap
  obtain ⟨q, hq, rfl⟩ := (hlive ap).1 hap
  obtain ⟨⟨q, sz, f⟩, hqB, hf, rfl⟩ := mem_lives.1 hq
  obtain rfl : f = false := hf
  obtain ⟨B1, B2, rfl⟩ := append_of_mem hqB
  refine ⟨(frees B1).length + (frees B2).length + 1, fun fuel hfuel => ?_⟩
  obtain ⟨h', B', hfree, hc', hlives, -, hlive'⟩ := hc.free hb hfuel
  refine ⟨h', hfree, .inr ⟨B', ⟨hc'.tiles, hc'.small, hc'.size, hc'.base_size, hc'.linked,
    hc'.freep, hc'.apart⟩, fun x => ?_⟩⟩
  change update h'.live (q + 8) false x = true ↔ _
  have hne : ∀ q' ∈ lives B1 ++ lives B2, q' ≠ q := fun q' hq' => by
    rw [mem_append, mem_lives, mem_lives] at hq'
    rcases hq' with ⟨b, hb', -, rfl⟩ | ⟨b, hb', -, rfl⟩
    · exact hc.tiles.ne_of_mem (.inl hb')
    · exact hc.tiles.ne_of_mem (.inr hb')
  rw [update_apply, hlives]
  split_ifs with hx
  · refine ⟨fun hcf => (by cases hcf), ?_⟩
    rintro ⟨q', hq', hx'⟩
    exact absurd (add_right_cancel (hx'.trans hx)) (hne q' hq')
  · rw [hlive', hlive x, lives_append, lives_cons_live rfl]
    constructor
    · rintro ⟨q', hq', rfl⟩
      rw [mem_append, mem_cons] at hq'
      rcases hq' with hq' | rfl | hq'
      · exact ⟨q', mem_append_left _ hq', rfl⟩
      · exact absurd rfl hx
      · exact ⟨q', mem_append_right _ hq', rfl⟩
    · rintro ⟨q', hq', rfl⟩
      refine ⟨q', ?_, rfl⟩
      rw [mem_append] at hq' ⊢
      exact hq'.imp_right (mem_cons_of_mem _)

/-- A store of the program in a block that it holds. -/
theorem Inv.store (hi : Inv base start h) {ap a : ℕ}
    (hap : h.live ap = true) (ha : ap ≤ a) (ha' : a + 4 ≤ ap - 8 + 8 * h.size (ap - 8)) :
    Inv base start { h with mem := update h.mem a v } := by
  rcases hi with ⟨-, -, hlive⟩ | ⟨B, hc, hlive⟩
  · rw [hlive ap] at hap
    cases hap
  obtain ⟨q, hq, rfl⟩ := (hlive ap).1 hap
  obtain ⟨b, hbB, -, rfl⟩ := mem_lives.1 hq
  rw [Nat.add_sub_cancel, hc.size b hbB] at ha'
  have hnode : ∀ q, Node base B q → q ≠ a ∧ q + 4 ≠ a := fun q hq => by
    have hbound := hc.tiles.mem hbB
    rcases hq with rfl | ⟨c, hcB, rfl⟩
    · omega
    · have hcsize := (hc.tiles.mem hcB).2.1
      rcases hc.tiles.disjoint hbB hcB with rfl | hd | hd <;> omega
  have hptr : ∀ q, Node base B q →
      Heap.ptr { h with mem := update h.mem a v } q = h.ptr q := fun q hq =>
    update_of_ne (hnode q hq).1 ..
  have hsize : ∀ q, Node base B q →
      Heap.size { h with mem := update h.mem a v } q = h.size q := fun q hq =>
    update_of_ne (hnode q hq).2 ..
  refine .inr ⟨B, ⟨hc.tiles, hc.small, fun c hcB => ?_, ?_, ?_, hc.freep, hc.apart⟩, hlive⟩
  · exact (hsize _ (node_of_mem hcB)).trans (hc.size c hcB)
  · exact (hsize base (.inl rfl)).trans hc.base_size
  · exact hc.linked.congr fun q hq => hptr q (node_of_mem_frees hq)

theorem Inv.step (hpos : 0 < base) (hs : start < 2 ^ 32) (hi : Inv base start h) {a : Act}
    {h' : Heap} (hstep : h.step base a = some (.ok h')) : Inv base start h' := by
  cases a with
  | malloc fuel ok nbytes =>
    simp only [Heap.step] at hstep
    split_ifs at hstep with hn
    obtain ⟨⟨r, h1⟩, hm, he⟩ := Option.map_eq_some_iff.1 hstep
    cases he
    obtain ⟨N, hN⟩ := hi.malloc hb hpos hs (le_of_lt hn) ok
    obtain ⟨r', h2, hm', hinv, -⟩ := hN (max fuel N) (le_max_right _ _)
    rw [malloc_mono hm (le_max_left _ _)] at hm'
    obtain ⟨rfl, rfl⟩ := Prod.mk.inj (Option.some.inj hm')
    exact hinv
  | free fuel ap =>
    simp only [Heap.step] at hstep
    split_ifs at hstep with hap
    obtain ⟨h1, hf, he⟩ := Option.map_eq_some_iff.1 hstep
    cases he
    obtain ⟨N, hN⟩ := hi.free hb hap
    obtain ⟨h2, hf', hinv⟩ := hN (max fuel N) (le_max_right _ _)
    rw [free_mono hf (le_max_left _ _)] at hf'
    obtain rfl := Option.some.inj hf'
    exact hinv
  | store ap a v =>
    simp only [Heap.step] at hstep
    split_ifs at hstep with hc
    cases hstep
    exact hi.store hb hc.1 hc.2.1 hc.2.2

end Heap

end Xv6.Umalloc
