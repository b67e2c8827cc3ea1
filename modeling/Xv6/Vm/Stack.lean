/-
# The arguments of a program

`exec` pushes the argument strings on the new stack one below the other, and below them the vector
that `main` gets. The stack pointer is a 32-bit number that nothing checks: what stops it is that
`copyout` comes to a page without the user bit. Below the stack that is the page that `exec` made
inaccessible. Where the pointer wraps around it is in the kernel's part of the space, of which only
the memory and the devices have page tables; `Stray` says that it misses both.

`wp_execArgs` is the specification, with lookups that check for the page table.
-/
import Xv6.Vm.Load

namespace Xv6.Vm

open Lib List Nat Ptable

variable {L : Layout} {A H : Multiset ℕ} {s₀ s s' : Phys} {l : List ℕ} {d v : ℕ}
  {E : Fail → Prop} {f : ℕ → UInt32} {T : ℕ → Option ℕ} {g : ℕ → Option UInt8}

/-! ## Where the arguments go -/

/-- Where `exec` puts the string `arg` below `sp`, without wrap-around. -/
def pushed (sp : ℤ) (arg : List UInt8) : ℤ := (sp - (arg.length + 1)) / 4 * 4

/-- The stack pointer below the strings. -/
def argSp (sp : ℤ) (argv : List (List UInt8)) : ℤ := argv.foldl pushed sp

/-- The strings and the argument vector fit in the page below `sz`. -/
def Fits (sz : ℕ) (argv : List (List UInt8)) : Prop :=
  (sz : ℤ) - PGSIZE ≤ argSp sz argv - (3 + argv.length + 1) * 4

/-- The first string below `sp` that does not fit in the page below `sz` goes to an address between
physical memory and the devices. -/
def Stray (sz : ℕ) : ℤ → List (List UInt8) → Prop
  | _, [] => False
  | sp, arg :: argv =>
      let sp := pushed sp arg
      if (sz : ℤ) - PGSIZE ≤ sp then Stray sz sp argv
      else ((KERNBASE + PHYSTOP : ℕ) : ℤ) ≤ sp + 2 ^ 32 ∧ sp + 2 ^ 32 < DEVSPACE

/-- The stack pointer as a 32-bit number. -/
theorem subSp_pushed {sp : ℕ} {arg : List UInt8} (hsp : sp ≤ KERNBASE)
    (harg : arg.length < KERNBASE) : ((subSp sp (arg.length + 1) / 4 * 4 : ℕ) : ℤ) =
      if 0 ≤ pushed sp arg then pushed sp arg else pushed sp arg + 2 ^ 32 := by
  simp only [subSp, pushed, KERNBASE] at *
  split_ifs <;> omega

theorem pushed_le (sp : ℤ) (arg : List UInt8) : pushed sp arg ≤ sp := by
  simp only [pushed]
  omega

theorem argSp_le (sp : ℤ) (argv : List (List UInt8)) : argSp sp argv ≤ sp := by
  induction argv generalizing sp with
  | nil => exact le_refl sp
  | cons arg argv ih => exact (ih _).trans (pushed_le sp arg)

/-- The bytes at `p` are those of the string and its end. -/
def CString (g : ℕ → Option UInt8) (p : ℕ) (arg : List UInt8) : Prop :=
  ∀ j ≤ arg.length, g (p + j) = some ((arg ++ [0]).getD j 0)

/-- The strings are at the addresses `ptrs`, one below the other, between `bot` and `top`. -/
def Laid (g : ℕ → Option UInt8) : ℕ → List (List UInt8) → List ℕ → ℕ → Prop
  | top, [], [], bot => bot = top
  | top, arg :: argv, p :: ptrs, bot =>
      p + (arg.length + 1) ≤ top ∧ CString g p arg ∧ Laid g p argv ptrs bot
  | _, _, _, _ => False

theorem Laid.le : ∀ {top : ℕ} {argv : List (List UInt8)} {ptrs : List ℕ} {bot : ℕ},
    Laid g top argv ptrs bot → bot ≤ top
  | _, [], [], _, h => le_of_eq h
  | _, _ :: _, _ :: _, _, h => h.2.2.le.trans ((Nat.le_add_right ..).trans h.1)

theorem Laid.congr {g' : ℕ → Option UInt8} : ∀ {top : ℕ} {argv : List (List UInt8)}
    {ptrs : List ℕ} {bot : ℕ}, Laid g top argv ptrs bot →
    (∀ a, bot ≤ a → a < top → g' a = g a) → Laid g' top argv ptrs bot
  | _, [], [], _, h, _ => h
  | _, arg :: _, p :: _, _, h, hg => by
    have hle := h.2.2.le
    have htop := h.1
    refine ⟨htop, fun j hj => ?_, h.2.2.congr fun a h1 h2 => hg a h1 (by omega)⟩
    rw [hg _ (by omega) (by omega), h.2.1 j hj]

/-- The ranges of the strings. -/
def strings (argv : List (List UInt8)) (ptrs : List ℕ) : List (ℕ × ℕ) :=
  zipWith (fun p arg => (p, arg.length + 1)) ptrs argv

/-- Two ranges do not overlap. -/
def Apart (r r' : ℕ × ℕ) : Prop := r.1 + r.2 ≤ r'.1 ∨ r'.1 + r'.2 ≤ r.1

theorem Laid.strings : ∀ {top : ℕ} {argv : List (List UInt8)} {ptrs : List ℕ} {bot : ℕ},
    Laid g top argv ptrs bot → ptrs.length = argv.length ∧
      (∀ i < argv.length, CString g (ptrs.getD i 0) (argv.getD i [])) ∧
      (∀ r ∈ Vm.strings argv ptrs, bot ≤ r.1 ∧ r.1 + r.2 ≤ top) ∧
      (Vm.strings argv ptrs).Pairwise Apart
  | _, [], [], _, _ => ⟨rfl, fun _ h => absurd h (Nat.not_lt_zero _), nofun, .nil⟩
  | top, arg :: argv, p :: ptrs, bot, h => by
    obtain ⟨htop, hstr, hrest⟩ := h
    obtain ⟨hlen, hstrs, hin, hapart⟩ := hrest.strings
    have hle := hrest.le
    refine ⟨by rw [length_cons, length_cons, hlen], fun i hi => ?_, fun r hr => ?_,
      .cons (fun r hr => .inr (hin r hr).2) hapart⟩
    · cases i with
      | zero => exact hstr
      | succ i => exact hstrs i (lt_of_succ_lt_succ hi)
    · rcases mem_cons.1 hr with rfl | hr
      · exact ⟨hle, htop⟩
      · have := hin r hr
        omega

/-! ### Words in memory -/

/-- The word at the address `a`, if the bytes are mapped. -/
def ldWord (g : ℕ → Option UInt8) (a : ℕ) : Option ℕ := do
  let b₀ ← g a
  let b₁ ← g (a + 1)
  let b₂ ← g (a + 2)
  let b₃ ← g (a + 3)
  pure (b₀.toNat + 256 * (b₁.toNat + 256 * (b₂.toNat + 256 * b₃.toNat)))

theorem ldWord_eq {a w : ℕ} (h : ∀ r < 4, g (a + r) = some (leByte w r)) (hw : w < 2 ^ 32) :
    ldWord g a = some w := by
  have h0 : g a = some (leByte w 0) := h 0 (by decide)
  rw [ldWord, h0, h 1 (by decide), h 2 (by decide), h 3 (by decide)]
  simp only [Option.bind_eq_bind, Option.bind_some, Option.pure_def, Option.some.injEq, leByte,
    UInt8.toNat_ofNat']
  omega

theorem length_wordBytes (ws : List ℕ) : (wordBytes ws).length = 4 * ws.length := by
  induction ws with
  | nil => rfl
  | cons w ws ih =>
    rw [wordBytes, flatMap_cons, length_append, length_map, length_range, length_cons]
    rw [wordBytes] at ih
    rw [ih]
    omega

theorem wordBytes_getD {r : ℕ} (hr : r < 4) : ∀ {ws : List ℕ} {i : ℕ}, i < ws.length →
    (wordBytes ws).getD (4 * i + r) 0 = leByte (ws.getD i 0) r
  | w :: ws, 0, _ => by
    rw [wordBytes, flatMap_cons, getD_append _ _ _ _ (by simpa using hr)]
    simp [getD_eq_getElem?_getD, hr]
  | w :: ws, i + 1, hi => by
    rw [wordBytes, flatMap_cons, getD_append_right _ _ _ _ (by simp; omega)]
    rw [length_map, length_range, show 4 * (i + 1) + r - 4 = 4 * i + r by omega]
    exact wordBytes_getD hr (Nat.lt_of_succ_lt_succ hi)

/-- What `main` finds at the stack pointer `esp`: a return address, `argc`, and the vector of the
pointers `ptrs` to the strings, which ends in 0. All of it is between `lo` and `hi`, and no two
parts overlap. -/
structure ArgStack (g : ℕ → Option UInt8) (lo hi esp : ℕ) (argv : List (List UInt8))
    (ptrs : List ℕ) : Prop where
  ret : ldWord g esp = some 0xffffffff
  argc : ldWord g (esp + 4) = some argv.length
  vec : ldWord g (esp + 8) = some (esp + 12)
  length : ptrs.length = argv.length
  ptr : ∀ i < argv.length, ldWord g (esp + 12 + 4 * i) = some (ptrs.getD i 0)
  last : ldWord g (esp + 12 + 4 * argv.length) = some 0
  string : ∀ i < argv.length, CString g (ptrs.getD i 0) (argv.getD i [])
  inside : ∀ r ∈ (esp, 12) :: (esp + 12, 4 * (argv.length + 1)) :: strings argv ptrs,
    lo ≤ r.1 ∧ r.1 + r.2 ≤ hi
  apart : ((esp, 12) :: (esp + 12, 4 * (argv.length + 1)) :: strings argv ptrs).Pairwise Apart

/-- The vector below the strings. -/
theorem Laid.argStack {g' : ℕ → Option UInt8} {lo top bot esp : ℕ} {argv : List (List UInt8)}
    {ptrs : List ℕ} (h : Laid g top argv ptrs bot) (htop : top < 2 ^ 31)
    (hesp : esp + 4 * (3 + argv.length + 1) = bot) (hlo : lo ≤ esp) (hargc : argv.length ≤ MAXARG)
    (hg : ∀ a < top, g' a = if esp ≤ a ∧ a < bot then
      some ((wordBytes ([0xffffffff, argv.length, esp + 12] ++ ptrs ++ [0])).getD (a - esp) 0)
      else g a) : ArgStack g' lo top esp argv ptrs := by
  obtain ⟨hlen, -, -, -⟩ := h.strings
  obtain ⟨-, hstr, hin, hapart⟩ := (h.congr fun a h1 h2 => by
    rw [hg a h2, if_neg (by omega)] : Laid g' top argv ptrs bot).strings
  have hle := h.le
  have hws : ([0xffffffff, argv.length, esp + 12] ++ ptrs ++ [0]).length = 3 + argv.length + 1 := by
    simp only [length_append, length_cons, length_nil, hlen]
  have hword : ∀ i < 3 + argv.length + 1, ∀ w < 2 ^ 32,
      ([0xffffffff, argv.length, esp + 12] ++ ptrs ++ [0]).getD i 0 = w →
      ldWord g' (esp + 4 * i) = some w := by
    intro i hi w hw32 hw
    refine ldWord_eq (fun r hr => ?_) hw32
    rw [hg _ (by omega), if_pos (by omega), show esp + 4 * i + r - esp = 4 * i + r by omega,
      wordBytes_getD hr (by omega), hw]
  have hvec : ∀ i < argv.length + 1,
      ([0xffffffff, argv.length, esp + 12] ++ ptrs ++ [0]).getD (i + 3) 0 = ptrs.getD i 0 := by
    intro i hi
    rw [append_assoc, getD_append_right _ _ _ _ (le_add_left 3 i),
      show i + 3 - [0xffffffff, argv.length, esp + 12].length = i from rfl]
    by_cases hlast : i < ptrs.length
    · rw [getD_append _ _ _ _ hlast]
    · obtain rfl : i = ptrs.length := by omega
      rw [getD_append_right _ _ _ _ (le_refl _), Nat.sub_self, getD_eq_default _ _ (le_refl _)]
      rfl
  refine ⟨hword 0 (by omega) _ (by decide) rfl, hword 1 (by omega) _ ?_ rfl,
    hword 2 (by omega) _ (by omega) rfl, hlen, fun i hi => ?_, ?_, hstr, ?_, ?_⟩
  · simp only [MAXARG] at hargc
    omega
  · have hmem : (ptrs.getD i 0, (argv.getD i []).length + 1) ∈ Vm.strings argv ptrs := by
      rw [getD_eq_getElem _ _ (hlen ▸ hi), getD_eq_getElem _ _ hi]
      exact mem_iff_getElem.2 ⟨i, by simp [Vm.strings, hlen, hi], by simp [Vm.strings]⟩
    have := (hin _ hmem).2
    rw [show esp + 12 + 4 * i = esp + 4 * (i + 3) by omega]
    exact hword _ (by omega) _ (by omega) (hvec i (by omega))
  · rw [show esp + 12 + 4 * argv.length = esp + 4 * (argv.length + 3) by omega]
    exact hword _ (by omega) _ (by decide) ((hvec _ (by omega)).trans (getD_eq_default _ _ hlen.le))
  · intro r hr
    rcases mem_cons.1 hr with rfl | hr
    · exact ⟨hlo, by omega⟩
    rcases mem_cons.1 hr with rfl | hr
    · exact ⟨by omega, by omega⟩
    · have := hin r hr
      exact ⟨by omega, this.2⟩
  · refine .cons (fun r hr => .inl ?_) (.cons (fun r hr => .inl ?_) hapart)
    · rcases mem_cons.1 hr with rfl | hr
      · exact le_refl _
      · have := hin r hr
        omega
    · have := hin r hr
      omega

/-- The space `d` while the arguments are copied: its mapping is `f` and `T`. -/
structure Keeps (L : Layout) (A : Multiset ℕ) (s₀ s : Phys) (l : List ℕ) (d : ℕ) (H : Multiset ℕ)
    (f : ℕ → UInt32) (T : ℕ → Option ℕ) : Prop where
  own : Own L A s₀ s l {d} H
  pte : pte s.mem d = f
  tab : tab s.mem d = T

/-- The mapping of a space with its stack at the page `v + 1`. -/
structure Stacked (f : ℕ → UInt32) (T : ℕ → Option ℕ) (v : ℕ) : Prop where
  upper : Upper f T
  present : ∀ u, u * PGSIZE < (v + 2) * PGSIZE → present (f u) = true
  lt : (v + 2) * PGSIZE < KERNBASE
  guard : user (f v) = false
  stack : user (f (v + 1)) = true

/-! ## copyout to the stack -/

section Copyout

variable {Q : ℤ → Phys → Prop} {va : ℕ} {buf : List UInt8}

variable (hs : Stacked f T v) (hk : Keeps L A s₀ s l d H f T)

include hs hk

/-- **`copyout` within the stack.** -/
theorem wp_copyout_stack (hlo : (v + 1) * PGSIZE ≤ va) (hhi : va + buf.length ≤ (v + 2) * PGSIZE)
    (hQ : ∀ s', Keeps L A s₀ s' l d H f T → Wrote f (· = v + 1) s s' →
      Stored s s' d va (va + buf.length) (fun a => buf.getD (a - va) 0) → Q 0 s') :
    wp (copyoutWith (checked d) va buf) E Q s := by
  have htouch : ∀ u, Touches va buf.length u → u = v + 1 := by
    rintro u ⟨a, h1, h2, rfl⟩
    refine Nat.div_eq_of_lt_le (hlo.trans h1) ?_
    rw [Nat.succ_mul, ← Nat.succ_mul]
    exact h2.trans_le hhi
  refine wp_copyout hs.lt.le hs.present _ (le_refl _) (fun _ => hhi) hk.own hk.pte hk.tab
    fun r s' hown hpte htab hwrote hres => ?_
  rcases hres with ⟨rfl, -, hst⟩ | ⟨rfl, u, hu, hno⟩
  · exact hQ s' ⟨hown, hpte, htab⟩ (hwrote.mono fun u hu => htouch u hu.1) hst
  · rw [htouch u hu, hs.stack] at hno
    cases hno

/-- **`copyout` to below the stack** comes to the page that is out of reach. -/
theorem wp_copyout_below (hlo : va < (v + 1) * PGSIZE) (hbuf : 0 < buf.length)
    (hmid : v * PGSIZE < va + buf.length)
    (hhi : va + buf.length ≤ (v + 2) * PGSIZE)
    (hQ : ∀ s', Keeps L A s₀ s' l d H f T → Wrote f (fun u => user (f u) = true) s s' →
      Q (-1) s') : wp (copyoutWith (checked d) va buf) E Q s := by
  refine wp_copyout hs.lt.le hs.present _ (le_refl _) (fun _ => hhi) hk.own hk.pte hk.tab
    fun r s' hown hpte htab hwrote hres => ?_
  rcases hres with ⟨rfl, hall, -⟩ | ⟨rfl, -⟩
  · have hg := hall v ⟨max va (v * PGSIZE), le_max_left _ _, max_lt (by omega) hmid,
      Nat.div_eq_of_lt_le (le_max_right _ _) (max_lt hlo (mul_lt_mul_page.2 (Nat.lt_succ_self v)))⟩
    rw [hs.guard] at hg
    cases hg
  · exact hQ s' ⟨hown, hpte, htab⟩ (hwrote.mono fun u hu => hu.2)

/-- **`copyout` to the kernel's part of the space** fails, if there is a page table. -/
theorem wp_copyout_upper (hlo : KERNBASE ≤ va) (hlt : va < 2 ^ 32) (hbuf : 0 < buf.length)
    (hE : KERNBASE + PHYSTOP ≤ va → va < DEVSPACE → E (.panic "uva2ka: no page table"))
    (hQ : ¬(KERNBASE + PHYSTOP ≤ va ∧ va < DEVSPACE) → Q (-1) s) :
    wp (copyoutWith (checked d) va buf) E Q s := by
  by_cases hbare : KERNBASE + PHYSTOP ≤ va ∧ va < DEVSPACE
  · have htab : tab s.mem d (pdx (PGROUNDDOWN va)) = none := by
      rw [hk.tab, PGROUNDDOWN, pdx_mul]
      refine hs.upper.bare _ ?_ ?_ <;>
      · simp only [KERNBASE, PHYSTOP, DEVSPACE, PGSIZE, NPDENTRIES] at *
        omega
    rw [copyoutWith, if_pos hbuf, wp_bind, checked, wp_bind, wp_walkpgdir_false, htab]
    exact wp_panic.2 (hE hbare.1 hbare.2)
  · have hu : USERPAGES ≤ va / PGSIZE := by
      simp only [KERNBASE, USERPAGES, PGSIZE] at *
      omega
    have hp : present (f (va / PGSIZE)) = true := by
      by_cases hram : va < KERNBASE + PHYSTOP
      · refine hs.upper.ram _ hu ?_
        simp only [RAMEND, KERNBASE, PHYSTOP, PGSIZE] at *
        omega
      · refine hs.upper.dev _ ?_ ?_ <;>
        · simp only [KERNBASE, PHYSTOP, DEVSPACE, PGSIZE] at *
          omega
    exact wp_copyout_kern (by rw [hk.pte, hp]) (by rw [hk.pte, hs.upper.user _ hu hp])
      hbuf (hQ hbare)

end Copyout

/-! ## The strings -/

theorem wrote_user (hs : Stacked f T v) (h : Wrote f (· = v + 1) s s') :
    Wrote f (fun u => user (f u) = true) s s' := h.mono fun u hu => by rw [hu, hs.stack]

/-- **The loop over the strings** copies them to the stack, or fails. -/
theorem wp_pushArgs {Q : Option (ℕ × List ℕ) → Phys → Prop} (hs : Stacked f T v) :
    ∀ {argv : List (List UInt8)} {argc sp : ℕ} {us : List ℕ} {s : Phys},
    (∀ arg ∈ argv, arg.length < KERNBASE) → argc ≤ MAXARG → (v + 1) * PGSIZE ≤ sp →
    sp ≤ (v + 2) * PGSIZE → sp % 4 = 0 → Keeps L A s₀ s l d H f T →
    (Stray ((v + 2) * PGSIZE) sp argv → E (.panic "uva2ka: no page table")) →
    (∀ s', Keeps L A s₀ s' l d H f T → Wrote f (fun u => user (f u) = true) s s' →
      (argc + argv.length ≤ MAXARG → ¬ Stray ((v + 2) * PGSIZE) sp argv ∧
        argSp sp argv < ((v + 1) * PGSIZE : ℕ)) → Q none s') →
    (∀ (sp' : ℕ) ptrs s', Keeps L A s₀ s' l d H f T → Wrote f (· = v + 1) s s' →
      ¬ Stray ((v + 2) * PGSIZE) sp argv → (sp' : ℤ) = argSp sp argv → (v + 1) * PGSIZE ≤ sp' →
      sp' % 4 = 0 → argc + argv.length ≤ MAXARG → Laid (byteAt s'.mem d) sp argv ptrs sp' →
      (∀ a < KERNBASE, sp ≤ a → byteAt s'.mem d a = byteAt s.mem d a) →
      Q (some (sp', us ++ ptrs)) s') →
    wp (pushArgsWith (checked d) argv argc sp us) E Q s := by
  have hpage : ((v + 2) * PGSIZE : ℕ) - (PGSIZE : ℤ) = ((v + 1) * PGSIZE : ℕ) := by
    push_cast
    ring
  intro argv
  induction argv with
  | nil =>
    intro argc sp us s _ hargc hlo hhi h4 hk _ _ hsome
    rw [pushArgsWith, wp_pure, ← append_nil us]
    exact hsome sp [] s hk (.refl s) (fun h => h) rfl hlo h4 hargc rfl fun _ _ _ => rfl
  | cons arg argv ih =>
    intro argc sp us s hargs hargc hlo hhi h4 hk hE hnone hsome
    have harg := hargs arg mem_cons_self
    have hlen : (arg ++ [0]).length = arg.length + 1 := by simp
    have hbuf : 0 < (arg ++ [0]).length := by omega
    have hlt := hs.lt
    have hsub := subSp_pushed (hhi.trans hlt.le) harg
    have hp4 : pushed sp arg % 4 = 0 := Int.mul_emod_left _ _
    have hple : pushed sp arg + (arg.length + 1) ≤ sp ∧
      sp < pushed sp arg + (arg.length + 1) + 4 := by
      simp only [pushed]
      omega
    rw [pushArgsWith]
    dsimp only
    by_cases hmax : argc ≥ MAXARG
    · rw [if_pos hmax, wp_pure]
      exact hnone s hk (.refl s) fun hc => absurd hc (by rw [length_cons]; omega)
    rw [if_neg hmax, wp_bind]
    by_cases hfit : (((v + 1) * PGSIZE : ℕ) : ℤ) ≤ pushed sp arg
    · -- the string fits
      have hstray : Stray ((v + 2) * PGSIZE) sp (arg :: argv) ↔
          Stray ((v + 2) * PGSIZE) (pushed sp arg) argv := by
        rw [Stray, hpage, if_pos hfit]
      rw [if_pos (by omega)] at hsub
      rw [hstray, ← hsub] at hE
      set sp1 := subSp sp (arg.length + 1) / 4 * 4
      refine wp_copyout_stack hs hk (by omega) (by rw [hlen]; omega) fun s1 hk1 hw1 hst => ?_
      rw [if_neg (by decide)]
      refine ih (fun a ha => hargs a (mem_cons_of_mem _ ha)) (by omega) (by omega) (by omega)
        (by omega) hk1 hE (fun s' hk' hw' hres => ?_)
        fun sp' ptrs s' hk' hw' hns hsp' hlo' h4' hmax' hlaid hkeep => ?_
      · refine hnone s' hk' ((wrote_user hs hw1).trans hw') fun hc => ?_
        rw [length_cons] at hc
        rw [hstray, show argSp sp (arg :: argv) = argSp (pushed sp arg) argv from rfl, ← hsub]
        exact hres (by omega)
      · rw [← hsub] at hstray
        rw [append_assoc]
        refine hsome sp' (sp1 :: ptrs) s' hk' (hw1.trans hw') (hstray.not.2 hns) ?_ hlo' h4' ?_
          ⟨by omega, fun j hj => ?_, hlaid⟩ fun a ha hge => ?_
        · rw [hsp', hsub]
          rfl
        · rw [length_cons]
          omega
        · rw [hkeep _ (by omega) (by omega), hst _ (by omega), if_pos (by rw [hlen]; omega)]
          dsimp only
          rw [Nat.add_sub_cancel_left]
        · rw [hkeep a ha (by omega), hst a ha, if_neg (by rw [hlen]; omega)]
    · -- it does not
      have hover : argSp sp (arg :: argv) < ((v + 1) * PGSIZE : ℕ) :=
        lt_of_le_of_lt (argSp_le (pushed sp arg) argv) (not_le.1 hfit)
      have hstray : Stray ((v + 2) * PGSIZE) sp (arg :: argv) ↔
          ((KERNBASE + PHYSTOP : ℕ) : ℤ) ≤ pushed sp arg + 2 ^ 32 ∧
            pushed sp arg + 2 ^ 32 < DEVSPACE := by
        rw [Stray, hpage, if_neg hfit]
      by_cases hneg : 0 ≤ pushed sp arg
      · have hns : ¬ Stray ((v + 2) * PGSIZE) sp (arg :: argv) := by
          rw [hstray]
          simp only [DEVSPACE]
          omega
        rw [if_pos hneg] at hsub
        refine wp_copyout_below hs hk (by omega) hbuf ?_ (by rw [hlen]; omega) fun s' hk' hw' => ?_
        · have hsucc : (v + 1) * PGSIZE = v * PGSIZE + 4096 := succ_mul v 4096
          rw [hlen]
          omega
        · rw [if_pos (by decide), wp_pure]
          exact hnone s' hk' hw' fun _ => ⟨hns, hover⟩
      · rw [if_neg hneg] at hsub
        refine wp_copyout_upper hs hk ?_ ?_ hbuf (fun h1 h2 => hE (hstray.2 ⟨by omega, by omega⟩))
          fun hns => ?_
        · simp only [KERNBASE] at *
          omega
        · omega
        · rw [if_pos (by decide), wp_pure]
          exact hnone s hk (.refl s) fun _ => ⟨fun hc => hns (by
            have := hstray.1 hc
            omega), hover⟩

/-! ## The vector -/

/-- **The arguments of a program.** They are on the stack as `main` reads them, and nothing but the
stack's page was written; or they did not fit, and nothing but pages of the program was; or there
is no page table where the first string goes that does not fit. -/
theorem wp_execArgs {Q : Option ℕ → Phys → Prop} {argv : List (List UInt8)} (hs : Stacked f T v)
    (hk : Keeps L A s₀ s l d H f T) (hargs : ∀ arg ∈ argv, arg.length < KERNBASE)
    (hE : Stray ((v + 2) * PGSIZE) ((v + 2) * PGSIZE : ℕ) argv →
      E (.panic "uva2ka: no page table"))
    (hnone : ∀ s', Keeps L A s₀ s' l d H f T → Wrote f (fun u => user (f u) = true) s s' →
      (argv.length ≤ MAXARG → ¬ Stray ((v + 2) * PGSIZE) ((v + 2) * PGSIZE : ℕ) argv ∧
        ¬ Fits ((v + 2) * PGSIZE) argv) → Q none s')
    (hsome : ∀ esp ptrs s', Keeps L A s₀ s' l d H f T → Wrote f (· = v + 1) s s' →
      ¬ Stray ((v + 2) * PGSIZE) ((v + 2) * PGSIZE : ℕ) argv → Fits ((v + 2) * PGSIZE) argv →
      ArgStack (byteAt s'.mem d) ((v + 1) * PGSIZE) ((v + 2) * PGSIZE) esp argv ptrs →
      Q (some esp) s') :
    wp (execArgsWith (checked d) argv ((v + 2) * PGSIZE)) E Q s := by
  have hpage : (v + 2) * PGSIZE = (v + 1) * PGSIZE + 4096 ∧
      (v + 1) * PGSIZE = v * PGSIZE + 4096 := ⟨succ_mul _ 4096, succ_mul v 4096⟩
  have hfits : Fits ((v + 2) * PGSIZE) argv ↔
      ((v + 1) * PGSIZE : ℕ) ≤ argSp ((v + 2) * PGSIZE : ℕ) argv - (3 + argv.length + 1) * 4 := by
    rw [Fits, hpage.1, cast_add, show ((4096 : ℕ) : ℤ) = PGSIZE from rfl, add_sub_cancel_right]
  rw [execArgsWith, wp_bind]
  refine wp_pushArgs hs hargs (zero_le _) (by omega) (le_refl _)
    (by simp only [PGSIZE]; omega) hk hE
    (fun s' hk' hw' hres => wp_pure.2 (hnone s' hk' hw' fun hc => ?_))
    fun sp ptrs s1 hk1 hw1 hns hsp hlo h4 hmax hlaid _ => ?_
  · obtain ⟨hns, hlt⟩ := hres (by omega)
    exact ⟨hns, fun hf => by have := hfits.1 hf; omega⟩
  · rw [zero_add] at hmax
    have hlt := hs.lt
    have hle := hlaid.le
    have hlen := hlaid.strings.1
    have hbound : 4 * (3 + argv.length + 1) ≤ 144 := by
      simp only [MAXARG] at hmax
      omega
    have hsub : ∀ n ≤ 144, subSp sp n = sp - n := by
      intro n hn
      simp only [subSp, KERNBASE] at *
      omega
    dsimp only
    rw [hsub _ (by omega), hsub _ (by omega), nil_append]
    obtain ⟨esp, hesp⟩ := Nat.exists_eq_add_of_le' (by omega : (3 + argv.length + 1) * 4 ≤ sp)
    rw [show sp - (argv.length + 1) * 4 = esp + 12 by omega,
      show sp - (3 + argv.length + 1) * 4 = esp by omega, wp_bind]
    have hwords : (wordBytes ([0xffffffff, argv.length, esp + 12] ++ ptrs ++ [0])).length =
        4 * (3 + argv.length + 1) := by
      simp only [length_wordBytes, length_append, length_cons, length_nil, hlen]
    by_cases hin : (v + 1) * PGSIZE ≤ esp
    · refine wp_copyout_stack hs hk1 hin (by omega) fun s2 hk2 hw2 hst => ?_
      rw [if_neg (by decide), wp_pure]
      refine hsome esp ptrs s2 hk2 (hw1.trans hw2) hns (hfits.2 (by omega))
        (hlaid.argStack (by simp only [KERNBASE] at hlt; omega) (by omega) hin hmax
          fun a ha => ?_)
      rw [hst a (ha.trans hlt), hwords, show esp + 4 * (3 + argv.length + 1) = sp by omega]
    · refine wp_copyout_below hs hk1 (by omega) (by omega) (by omega) (by omega)
        fun s2 hk2 hw2 => ?_
      rw [if_pos (by decide), wp_pure]
      exact hnone s2 hk2 ((wrote_user hs hw1).trans hw2) fun _ =>
        ⟨hns, fun hf => by have := hfits.1 hf; omega⟩

end Xv6.Vm
