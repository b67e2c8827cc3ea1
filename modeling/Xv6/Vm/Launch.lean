/-
# A program and its arguments

What the callers of `exec` rely on: the memory that the new program finds, and its arguments.

* `exec_image`: before the arguments, the memory is the zeroes overlaid with one segment of the file
  after the other.
* `execArgs_faithful`: arguments that fit in the page of the stack are there as `main` reads them,
  and nothing else changed.
* `argsSafe_iff`: arguments that do not fit are refused, and until then only pages of the program
  are written. That is so unless the stack pointer wraps around to addresses that no space has a
  page table for (`Stray`), which takes a string of 32 MB.
-/
import Xv6.Vm.Overrun

namespace Xv6.Vm

open Lib List Ptable

variable {L : Layout} {s s₁ : Phys} {l : List ℕ} {k k' : Kernel} {p : Slot} {ip : File}
  {path : List UInt8} {argv : List (List UInt8)} {d img sz : ℕ}

/-! ## The image -/

/-- From `s`, `exec` of the file comes to the argument phase in `s₁`: with the space `d` of the size
`sz`, of which the program takes `img`. -/
structure NewImage (L : Layout) (ip : File) (s s₁ : Phys) (d img sz : ℕ) : Prop where
  header : ip.readi 0 elfhdrSize = elfhdrSize
  magic : ip.elfhdr.magic = ELF_MAGIC
  image : execImage L ip s = .ok (some (d, some (img, sz)), s₁)

theorem NewImage.exec_eq (h : NewImage L ip k.phys s₁ d img sz) :
    exec L p (some ip) path argv k = execLaunch L p ip path argv d sz { k with phys := s₁ } := by
  have hphys : onPhys (execImage L ip) k =
    .ok (some (d, some (img, sz)), { k with phys := s₁ }) := by
    rw [onPhys, Prog.zoom, h.image]
  rw [Vm.exec_eq, if_neg (not_not.2 h.header), if_neg (not_not.2 h.magic), bind_of_ok hphys]

/-- What the space is. -/
theorem NewImage.ready (h : NewImage L ip s s₁ d img sz) (hown : Own L l s s l 0 0) :
    ∃ v l', PGROUNDUP img = v * PGSIZE ∧ sz = (v + 2) * PGSIZE ∧ Own L l s s₁ l' {d} 0 ∧
      Ready s₁.mem d v ip.image := by
  have hwp := wp_execImage ip (E := fun _ => False) (Q := fun r s₁ => ∀ d img sz,
    r = some (d, some (img, sz)) → ∃ v l', PGROUNDUP img = v * PGSIZE ∧ sz = (v + 2) * PGSIZE ∧
      Own L l s s₁ l' {d} 0 ∧ Ready s₁.mem d v ip.image) hown (fun _ _ _ _ _ _ => nofun)
    (fun _ _ _ _ _ _ _ => nofun) fun d img v l' s' hv hown' hr d' img' sz' heq => by
      cases heq
      exact ⟨v, l', hv, rfl, hown', hr⟩
  exact post_of_wp hwp h.image d img sz rfl

/-- The image of a program without segments, with memory to spare. -/
theorem exists_bareImage (h : Own L l s s l 0 0) (hl : 3000 ≤ l.length)
    (hden : ∀ i, s.denied i = false) : ∃ d s₁, NewImage L bareElf s s₁ d 0 (2 * PGSIZE) := by
  obtain ⟨r, s₁, hs1, d, rfl⟩ := exists_ok_of_wp (wp_execImage_bare (Q := fun r _ => ∃ d,
    r = some (d, some (0, 2 * PGSIZE))) h hl hden fun d _ _ _ _ => ⟨d, rfl⟩)
  exact ⟨d, s₁, by decide, by decide, hs1⟩

/-- The free pages of a kernel that has started. -/
theorem Booted.own_free {L : Layout} (hk : Booted L k) :
    ∃ l : List ℕ, Own L l k.phys k.phys l 0 0 ∧ 3000 ≤ l.length := by
  obtain ⟨l, hown, hl⟩ := hk.free
  exact ⟨l, hown.restrict_free, by omega⟩

/-- What `exec` must do with arguments that fit, for a new space `d` of the size `sz`: the argument
phase succeeds, `main` finds the arguments at the stack pointer, and no byte changes outside of the
page of the stack. -/
def ArgsFaithful (cur d sz : ℕ) (argv : List (List UInt8)) (s₁ : Phys) : Prop :=
  ∃ esp ptrs s₂, execArgs cur d argv sz s₁ = .ok (some esp, s₂) ∧
    ArgStack (byteAt s₂.mem d) (sz - PGSIZE) sz esp argv ptrs ∧
    ∀ n, target (pte s₁.mem d ((sz - PGSIZE) / PGSIZE)) ≠ some n → s₂.mem n = s₁.mem n

/-- No string is longer than the way that the stack pointer goes. -/
theorem argSp_add_le : ∀ {argv : List (List UInt8)} (sp : ℤ) {arg : List UInt8}, arg ∈ argv →
    argSp sp argv + arg.length ≤ sp
  | arg' :: argv, sp, arg, h => by
    have hp : pushed sp arg' + arg'.length ≤ sp := by
      simp only [pushed]
      omega
    rcases mem_cons.1 h with rfl | h
    · have := argSp_le (pushed sp arg) argv
      exact le_trans (Int.add_le_add_right this _) hp
    · have := argSp_add_le (pushed sp arg') h
      exact this.trans (pushed_le sp arg')

/-- Strings that fit do not stray. -/
theorem not_stray_of_le : ∀ (argv : List (List UInt8)) {sp : ℤ},
    (sz : ℤ) - PGSIZE ≤ argSp sp argv → ¬ Stray sz sp argv
  | [], _, _ => fun h => h
  | arg :: argv, sp, h => by
    rw [Stray, if_pos (le_trans h (argSp_le (pushed sp arg) argv))]
    exact not_stray_of_le argv h

theorem Fits.le (h : Fits sz argv) : (sz : ℤ) - PGSIZE ≤ argSp sz argv := by
  unfold Fits at h
  omega

/-- Every string of arguments that fit takes less than a page. -/
theorem Fits.length_lt (h : Fits sz argv) : ∀ arg ∈ argv, arg.length < KERNBASE := by
  intro arg harg
  have := h.le
  have := argSp_add_le sz harg
  simp only [PGSIZE, KERNBASE] at *
  omega

theorem stack_page (v : ℕ) : (v + 2) * PGSIZE - PGSIZE = (v + 1) * PGSIZE ∧
    ((v + 2) * PGSIZE - PGSIZE) / PGSIZE = v + 1 := by
  have : (v + 2) * PGSIZE - PGSIZE = (v + 1) * PGSIZE := by
    rw [Nat.succ_mul (v + 1), Nat.add_sub_cancel]
  exact ⟨this, by rw [this, Nat.mul_div_cancel _ (by decide)]⟩

/-- **`exec` passes the arguments on**, for every new image and every strings for which the stack
pointer stays in the page below `sz`. The page table entry that a null pointer would give does not
matter (`cur`). -/
theorem execArgs_faithful (hfree : Free s.mem s.freelist l) (hnodup : l.Nodup)
    (hram : ∀ n ∈ l, L.Ram n) (himg : NewImage L ip s s₁ d img sz) (hargc : argv.length ≤ MAXARG)
    (hfits : Fits sz argv) (cur : ℕ) : ArgsFaithful cur d sz argv s₁ := by
  obtain ⟨v, l', -, rfl, hown, hr⟩ := himg.ready (own_of_free hfree hnodup hram)
  have hwp := wp_execArgs (E := fun _ => False) (Q := fun r s₂ => ∃ esp ptrs, r = some esp ∧
      ArgStack (byteAt s₂.mem d) ((v + 1) * PGSIZE) ((v + 2) * PGSIZE) esp argv ptrs ∧
      Wrote (pte s₁.mem d) (· = v + 1) s₁ s₂) hr.stacked ⟨hown, rfl, rfl⟩ hfits.length_lt
    (not_stray_of_le argv hfits.le) (fun _ _ _ hres => absurd hfits (hres hargc).2)
    fun esp ptrs s₂ _ hw _ _ hst => ⟨esp, ptrs, rfl, hst, hw⟩
  obtain ⟨r, s₂, hs₂, esp, ptrs, rfl, hst, hw⟩ := exists_ok_of_wp hwp
  refine ⟨esp, ptrs, s₂, execArgs_refines cur _ _ hs₂, ?_, fun n hn => hw n ?_⟩
  · rwa [(stack_page v).1]
  · rintro u rfl
    rwa [(stack_page v).2] at hn

/-- The hypotheses of `execArgs_faithful` are satisfiable: a program gets a string and an empty
one. -/
theorem execArgs_faithful_booted : ∃ L s s₁ d, NewImage L bareElf s s₁ d 0 8192 ∧
    ArgsFaithful 0 d 8192 [[0x61], []] s₁ := by
  obtain ⟨k, hk⟩ := exists_booted
  obtain ⟨l, hown, hl⟩ := hk.own_free
  obtain ⟨d, s₁, himg⟩ := exists_bareImage hown hl hk.denied
  exact ⟨_, k.phys, s₁, d, himg, execArgs_faithful hown.free (Multiset.coe_nodup.1 hown.nodup)
    (fun n hn => hown.ram n (Multiset.mem_coe.2 hn)) himg (by decide) (by unfold Fits; decide) 0⟩

/-! ## Arguments that do not fit -/

/-- What `exec` must do with any arguments, for a new space `d` of the size `sz`: it returns -1 if
they do not fit, `uva2ka` never meets an absent page directory entry, and of all memory only frames
of present user pages of the new space are written. -/
def ArgsSafe (L : Layout) (k : Kernel) (p : Slot) (ip : File) (path : List UInt8)
    (argv : List (List UInt8)) (d sz : ℕ) (s₁ : Phys) : Prop :=
  (¬ Fits sz argv → ∃ k', exec L p (some ip) path argv k = .ok (-1, k')) ∧
    ∃ r s₂, execArgsWith (checked d) argv sz s₁ = .ok (r, s₂) ∧
      execArgs (k.proc p).pgdir d argv sz s₁ = .ok (r, s₂) ∧
      ∀ n, (∀ u, user (pte s₁.mem d u) = true → target (pte s₁.mem d u) ≠ some n) →
        s₂.mem n = s₁.mem n

/-- A string that strays makes `uva2ka` meet an absent entry. -/
theorem not_argsSafe (hown : Own L l k.phys k.phys l 0 0) (himg : NewImage L ip k.phys s₁ d img sz)
    (hargc : argv.length < MAXARG) (hargs : ∀ arg ∈ argv, arg.length < KERNBASE)
    (hstray : Stray sz sz argv) : ¬ ArgsSafe L k p ip path argv d sz s₁ := by
  obtain ⟨v, l', -, rfl, hown1, hr⟩ := himg.ready hown
  rintro ⟨-, r, s2, hs2, -⟩
  have hwp := wp_execArgs (E := fun _ => True) (Q := fun _ _ => False) hr.stacked
    ⟨hown1, rfl, rfl⟩ hargs (fun _ => trivial) (fun _ _ _ hres => (hres hargc.le).1 hstray)
    fun _ _ _ _ _ hns _ _ => hns hstray
  exact post_of_wp hwp hs2

/-- **Oversized arguments are refused safely exactly if no string strays**, for every kernel with a
proper free list, every file from which a new image comes, and every strings that are shorter than
the user part of memory. -/
theorem argsSafe_iff (hfree : Free k.phys.mem k.phys.freelist l) (hnodup : l.Nodup)
    (hram : ∀ n ∈ l, L.Ram n) (himg : NewImage L ip k.phys s₁ d img sz)
    (hargc : argv.length < MAXARG) (hargs : ∀ arg ∈ argv, arg.length < KERNBASE) :
    ArgsSafe L k p ip path argv d sz s₁ ↔ ¬ Stray sz sz argv := by
  have hown := own_of_free hfree hnodup hram
  refine ⟨fun h hstray => not_argsSafe hown himg hargc hargs hstray h,
    fun hns => ⟨fun hf => ?_, ?_⟩⟩
  · obtain ⟨v, l', -, rfl, hown₁, hr⟩ := himg.ready hown
    rw [himg.exec_eq]
    have hwp : wp (execLaunch L p ip path argv d ((v + 2) * PGSIZE)) (fun _ => False)
        (fun r _ => r = -1) { k with phys := s₁ } :=
      wp_execLaunch hown₁ hr hargs hns (fun s' hk' _ => wp_bad hk'.own fun _ _ _ => rfl)
        fun _ _ _ hc => absurd hc hf
    obtain ⟨r, k', hk', rfl⟩ := exists_ok_of_wp hwp
    exact ⟨k', hk'⟩
  · obtain ⟨v, l', -, rfl, hown₁, hr⟩ := himg.ready hown
    have hwp := wp_execArgs (E := fun _ => False) (Q := fun _ s₂ => Wrote (pte s₁.mem d)
      (fun u => user (pte s₁.mem d u) = true) s₁ s₂) hr.stacked ⟨hown₁, rfl, rfl⟩ hargs hns
      (fun _ _ hw _ => hw) fun _ _ _ _ hw _ _ _ => wrote_user hr.stacked hw
    obtain ⟨r, s₂, hs₂, hw⟩ := exists_ok_of_wp hwp
    exact ⟨r, s₂, hs₂, execArgs_refines _ _ _ hs₂, hw⟩

/-- The hypotheses of `argsSafe_iff` are satisfiable: a string of one byte. -/
theorem argsSafe_iff_booted : ∃ L k p d s₁, NewImage L bareElf k.phys s₁ d 0 8192 ∧
    ArgsSafe L k p bareElf [] [[0x61]] d 8192 s₁ := by
  obtain ⟨k, hk⟩ := exists_booted
  obtain ⟨l, hown, hl⟩ := hk.own_free
  obtain ⟨d, s₁, himg⟩ := exists_bareImage hown hl hk.denied
  exact ⟨_, k, k.initproc, d, s₁, himg, (argsSafe_iff hown.free (Multiset.coe_nodup.1 hown.nodup)
    (fun n hn => hown.ram n (Multiset.mem_coe.2 hn)) himg (by decide) (by decide)).2
    (not_stray (by decide) (by decide) (by decide) (by decide))⟩

/-- The first process grows by 32 MB and three pages. -/
theorem Booted.sbrk {L : Layout} (hk : Booted L k) : ∃ k', ∃ l' : List ℕ,
    growproc L k.initproc 0x2003000 k = .ok (0, k') ∧ (k'.proc k.initproc).sz = 0x2004000 ∧
      Own L l' k'.phys k'.phys l' 0 0 ∧ 3000 ≤ l'.length ∧ ∀ i, k'.phys.denied i = false := by
  obtain ⟨l, hown, hl⟩ := hk.free
  rw [Kernel.spaces_cons (by rw [hk.running]; decide), ← Multiset.singleton_add,
    ← zero_add k.held] at hown
  have hpart := hown.restrict
  have hcard : 50000 ≤ Multiset.card ((l : Multiset ℕ) +
      Multiset.bind {(k.proc k.initproc).pgdir} (pages k.phys.mem) + 0) := by
    rw [Multiset.card_add, Multiset.card_add, Multiset.coe_card]
    omega
  suffices hwp : wp (growproc L k.initproc 0x2003000) (fun _ => False) (fun r k' => r = 0 ∧
      ∃ l' : List ℕ, (k'.proc k.initproc).sz = 0x2004000 ∧ Own L l' k'.phys k'.phys l' 0 0 ∧
        3000 ≤ l'.length ∧ ∀ i, k'.phys.denied i = false) k by
    obtain ⟨r, k', hk', rfl, l', hrest⟩ := exists_ok_of_wp hwp
    exact ⟨k', l', hk', hrest⟩
  rw [growproc, wp_bind, wp_get]
  dsimp only
  rw [hk.sz, show (((PGSIZE : ℕ) + (0x2003000 : Int32).toInt) % 2 ^ 32 : ℤ).toNat = 0x2004000 by
    decide, if_pos (by decide), if_neg (by decide), wp_bind, wp_onPhys]
  refine wp_allocuvm hpart (fun hnew u hge hlt => hk.sized.absent (user_of_lt hnew.le hlt) hge)
    (fun l' s' _ _ htight => ?_) fun _ l' s' hown' ha => ?_
  · rcases htight (fun u hu hge => hk.sized.absent hu hge) (by decide) with ⟨i, hi⟩ | hle
    · rw [hk.denied i] at hi
      cases hi
    · rw [Multiset.card_zero] at hle
      exact absurd (hcard.trans hle) (by decide)
  · rw [if_neg (by decide), wp_bind, wp_setProc, wp_pure]
    refine ⟨rfl, l', ?_, hown'.restrict_free, ?_, fun i => ?_⟩
    · dsimp only
      rw [Function.update_self]
      exact (by decide : max PGSIZE 0x2004000 = 0x2004000)
    · have hno := hown'.card_le 0x2004000 fun u hu hp => by
        have := ((hk.sized.grown (ha.grown hpart)) u hu).1 hp
        simp only [PGSIZE] at this ⊢
        omega
      rw [Multiset.card_zero] at hno
      simp only [PGSIZE] at hno
      omega
    · rw [hown'.denied]
      exact hk.denied i

/-- A process of 32 MB passes all its memory to a program: the stack pointer wraps around to
0xFDFFF000, where the new space has no page table. -/
theorem argsSafe_overrun : ∃ L k₀ k d s₁, Booted L k₀ ∧
    growproc L k₀.initproc 0x2003000 k₀ = .ok (0, k) ∧
    longArg.length < (k.proc k₀.initproc).sz ∧ NewImage L bareElf k.phys s₁ d 0 8192 ∧
    ¬ Fits 8192 [longArg] ∧ ¬ ArgsSafe L k k₀.initproc bareElf [] [longArg] d 8192 s₁ := by
  obtain ⟨k₀, hk₀⟩ := exists_booted
  obtain ⟨k, l, hk, hsz, hown, hl, hden⟩ := hk₀.sbrk
  obtain ⟨d, s₁, himg⟩ := exists_bareImage hown hl hden
  have hlen : longArg.length = 0x2002FFF := length_replicate
  have hpush : pushed (8192 : ℕ) longArg = -0x2001000 := by
    rw [pushed, hlen]
    decide
  refine ⟨_, k₀, k, d, s₁, hk₀, hk, by rw [hlen, hsz]; decide, himg, fun hf => ?_,
    not_argsSafe hown himg (by decide) (fun arg harg => ?_) ?_⟩
  · have := hf.le
    rw [argSp, foldl_cons, foldl_nil, hpush] at this
    exact absurd this (by decide)
  · rw [mem_singleton.1 harg, hlen]
    decide
  · rw [Stray, hpush, if_neg (by decide)]
    decide

end Xv6.Vm
