/-
# Loading a program

The sizes and addresses in the headers of a file are arbitrary. What keeps `exec` from mapping a
page twice and from loading to an address that is not mapped is that at all times the pages of the
new space are those below `sz` (`Sized`), which every segment only extends. Segments may come in any
order, overlap and end anywhere: the memory of the space is the zeroes overlaid with one segment
after the other (`Loaded`, `File.image`).

`wp_execImage` is what `exec` comes to before the arguments: a space with the program, a page under
the stack that is out of reach, and the stack (`Ready`).
-/
import Xv6.Vm.Phases
import Xv6.Vm.User

namespace Xv6.Vm

open Function Lib Nat Ptable

variable {L : Layout} {A D H : Multiset ℕ} {s0 s s' : Phys} {l l' : List ℕ} {d n v sz newsz : ℕ}
  {E : Fail → Prop} {f g : ℕ → UInt32} {T T' : ℕ → Option ℕ} {mem : ℕ → Page}

/-! ## Spaces of a size -/

/-- The pages mapped below `KERNBASE` are those below `sz`. -/
def Sized (f : ℕ → UInt32) (sz : ℕ) : Prop :=
  ∀ u < USERPAGES, present (f u) = true ↔ u * PGSIZE < sz

theorem Sized.present {f : ℕ → UInt32} (h : Sized f sz) (hsz : sz ≤ KERNBASE) {u : ℕ}
    (hu : u * PGSIZE < sz) : Vm.present (f u) = true :=
  (h u (user_of_lt hsz hu)).2 hu

theorem Sized.absent {f : ℕ → UInt32} (h : Sized f sz) {u : ℕ} (hu : u < USERPAGES)
    (hsz : sz ≤ u * PGSIZE) : Vm.present (f u) = false := by
  cases hp : Vm.present (f u) with
  | false => rfl
  | true => exact absurd ((h u hu).1 hp) (not_lt.2 hsz)

/-- A space without user pages. -/
theorem sized_of_empty {f : ℕ → UInt32} (h : ∀ u < USERPAGES, f u = 0) : Sized f 0 := fun u hu => by
  rw [h u hu]
  exact ⟨fun hp => absurd hp (by decide), fun hlt => absurd hlt (not_lt_zero _)⟩

/-- `allocuvm` extends a space to the new size. -/
theorem Sized.grown {f g : ℕ → UInt32} {newsz : ℕ} (h : Sized f sz) (hg : Grown f g sz newsz) :
    Sized g (max sz newsz) := by
  intro u hu
  rw [lt_max_iff]
  by_cases hin : sz ≤ u * PGSIZE ∧ u * PGSIZE < newsz
  · exact ⟨fun _ => .inr hin.2, fun _ => (hg.new u hin.1 hin.2).1⟩
  · rw [hg.old u hin, h u hu]
    omega

/-- The kernel's part stays as it is when a space grows or shrinks. -/
theorem Kern.grown {mem' : ℕ → Page} (h : Kern mem d) (hnew : newsz < KERNBASE)
    (hg : Grown (pte mem d) (pte mem' d) sz newsz) : Kern mem' d :=
  h.congr fun u hu => hg.old u fun hc => absurd (user_of_lt hnew.le hc.2) (not_lt.2 hu)

/-- The entries `f` and the page tables `T` of a space above `KERNBASE`, as `setupkvm` leaves them:
nothing has the user bit, memory and the devices are mapped, and in between there is no table. -/
structure Upper (f : ℕ → UInt32) (T : ℕ → Option ℕ) : Prop where
  user : ∀ u, USERPAGES ≤ u → present (f u) = true → user (f u) = false
  dev : ∀ u, DEVSPACE / PGSIZE ≤ u → u < 2 ^ 20 → present (f u) = true
  ram : ∀ u, USERPAGES ≤ u → u < RAMEND → present (f u) = true
  bare : ∀ i, 568 ≤ i → i < 1016 → T i = none

theorem Upper.congr (h : Upper f T) (hf : ∀ u, USERPAGES ≤ u → g u = f u)
    (hT : ∀ i, 512 ≤ i → T' i = T i) : Upper g T' := by
  refine ⟨fun u hu hp => ?_, fun u hu hu' => ?_, fun u hu hu' => ?_, fun i hi hi' => ?_⟩
  · rw [hf u hu] at hp ⊢
    exact h.user u hu hp
  · rw [hf u (le_trans (by decide) hu)]
    exact h.dev u hu hu'
  · rw [hf u hu]
    exact h.ram u hu hu'
  · rw [hT i (by omega)]
    exact h.bare i hi hi'

theorem Upper.kern (h : Upper (pte mem d) (tab mem d)) : Kern mem d :=
  ⟨h.user, h.dev⟩

/-- The kernel's part stays as it is when a space grows. -/
theorem Upper.grown (h : Upper (pte s.mem d) (tab s.mem d)) (ha : Allocated s s' l l' d sz newsz)
    (hnew : newsz < KERNBASE) : Upper (pte s'.mem d) (tab s'.mem d) :=
  h.congr (fun u hu => ha.old u fun hc => absurd (user_of_lt hnew.le hc.2) (not_lt.2 hu)) ha.high

/-! ## Loading the program -/

theorem getLE_lt (f : File) (off w : ℕ) : f.getLE off w < 256 ^ w := Buf.getLE_lt _ _ _

/-- The `k` program headers from `off` on. -/
def File.proghdrs (ip : File) : ℕ → ℕ → List Proghdr
  | 0, _ => []
  | k + 1, off => ip.proghdr off :: ip.proghdrs k ((off + proghdrSize) % 2 ^ 32)

/-- The memory `m`, overlaid with the bytes of the file that a program header describes. -/
def File.overlaid (ip : File) (m : ℕ → UInt8) (ph : Proghdr) (a : ℕ) : UInt8 :=
  if ph.type = ELF_PROG_LOAD ∧ ph.vaddr ≤ a ∧ a < ph.vaddr + ph.filesz then
    ip.data (ph.off + (a - ph.vaddr))
  else m a

/-- The memory of the space below the size `sz` is `m`, which is zero behind it. -/
structure Loaded (mem : ℕ → Page) (d sz : ℕ) (m : ℕ → UInt8) : Prop where
  bytes : ∀ a, a / PGSIZE * PGSIZE < sz → byteAt mem d a = some (m a)
  zero : ∀ a, sz ≤ a → m a = 0

variable {m : ℕ → UInt8}

/-- The addresses of the pages below a size. -/
theorem lt_kernbase {a : ℕ} (hsz : sz ≤ KERNBASE) (ha : a / PGSIZE * PGSIZE < sz) :
    a < KERNBASE := by
  have hu := user_of_lt hsz ha
  simp only [PGSIZE, USERPAGES, KERNBASE] at *
  omega

/-- `allocuvm` extends the memory with zeroes. -/
theorem Loaded.grown {s' : Phys} {l' : List ℕ} {newsz : ℕ} (h : Loaded s.mem d sz m)
    (hown : Own L A s0 s l {d} H) (ha : Allocated s s' l l' d sz newsz) (hsz : sz < KERNBASE)
    (hnew : newsz < KERNBASE) : Loaded s'.mem d (max sz newsz) m where
  bytes a hlt := by
    have hu := page_of_lt (lt_kernbase (max_lt hsz hnew).le hlt)
    by_cases hold : a / PGSIZE * PGSIZE < sz
    · have hpte := ha.old (a / PGSIZE) fun hc => not_le.2 hold hc.1
      rw [← h.bytes a hold, byteAt, byteAt, page_eq hown hu (by rw [hpte])
        fun m hml hmd hmt _ => ha.built.mem m hml hmd hmt]
    · obtain ⟨n, hn, hpte, hz⟩ := ha.new (a / PGSIZE) (by omega) (by omega)
      have hlt := (hown.ram n (hown.mem_of_free hn)).lt
      rw [h.zero a (by have := div_mul_le_self a PGSIZE; omega), byteAt, page, hpte,
        target_mkPte (by omega) perm_lt, Option.map_some, hz, Option.map_some]
      exact congrArg some (Buf.byte_zero _)
  zero a ha := h.zero a (le_trans (le_max_left _ _) ha)

/-- Bytes of the file are stored over the memory. -/
theorem Loaded.stored {s' : Phys} {lo hi : ℕ} {g : ℕ → UInt8} (h : Loaded s.mem d sz m)
    (hst : Stored s s' d lo hi g) (hsz : sz ≤ KERNBASE) (hhi : hi ≤ sz) :
    Loaded s'.mem d sz fun a => if lo ≤ a ∧ a < hi then g a else m a where
  bytes a ha := by
    rw [hst a (lt_kernbase hsz ha), h.bytes a ha]
    split_ifs <;> rfl
  zero a ha := by
    rw [if_neg (by omega)]
    exact h.zero a ha

/-- **The loop over the program headers** leaves a space of the size it returns, and in it the
memory that the headers describe. -/
theorem wp_loadSegments {Q : Option ℕ → Phys → Prop} {ip : File}
    (hnone : ∀ l' s', Own L A s0 s' l' {d} H → Q none s') :
    ∀ {k off sz : ℕ} {s : Phys} {l : List ℕ} {m : ℕ → UInt8}, Own L A s0 s l {d} H →
    Upper (pte s.mem d) (tab s.mem d) → Sized (pte s.mem d) sz → sz < KERNBASE →
    Loaded s.mem d sz m →
    (∀ sz l' s', Own L A s0 s' l' {d} H → Upper (pte s'.mem d) (tab s'.mem d) →
      Sized (pte s'.mem d) sz → sz < KERNBASE →
      Loaded s'.mem d sz ((ip.proghdrs k off).foldl ip.overlaid m) → Q (some sz) s') →
    wp (loadSegments L d ip k off sz) E Q s := by
  intro k
  induction k with
  | zero =>
    intro off sz s l m h hup hs hsz hm hsome
    rw [loadSegments, wp_pure]
    exact hsome sz l s h hup hs hsz hm
  | succ k ih =>
    intro off sz s l m h hup hs hsz hm hsome
    rw [loadSegments]
    dsimp only
    refine wp_ite.2 ⟨fun _ => ?_, fun _ => wp_ite.2 ⟨fun htype => ?_, fun htype =>
      wp_ite.2 ⟨fun _ => ?_, fun h3 => wp_ite.2 ⟨fun _ => ?_, fun h4 => ?_⟩⟩⟩⟩
    · rw [wp_pure]
      exact hnone l s h
    · have hskip : ip.overlaid m (ip.proghdr off) = m := by
        funext a
        exact if_neg fun hc => htype hc.1
      refine ih h hup hs hsz hm ?_
      rwa [File.proghdrs, List.foldl_cons, hskip] at hsome
    · rw [wp_pure]
      exact hnone l s h
    · rw [wp_pure]
      exact hnone l s h
    · set ph := ip.proghdr off
      have hva : ph.vaddr < 2 ^ 32 := getLE_lt ip _ 4
      have hms : ph.memsz < 2 ^ 32 := getLE_lt ip _ 4
      have hoff : ph.off < 2 ^ 32 := getLE_lt ip _ 4
      have hno : (ph.vaddr + ph.memsz) % 2 ^ 32 = ph.vaddr + ph.memsz := by omega
      rw [hno, wp_bind]
      refine wp_allocuvm h (fun hnew u hge hlt => hs.absent (user_of_lt hnew.le hlt) hge)
        (fun l' s' hown _ _ => ?_) fun hnew l' s' hown ha => ?_
      · rw [if_pos rfl, wp_pure]
        exact hnone l' s' hown
      · have hs' := hs.grown (ha.grown h)
        have hm' := hm.grown h ha hsz hnew
        have hmax : max sz (ph.vaddr + ph.memsz) < KERNBASE := max_lt hsz hnew
        have hend : ph.vaddr + ph.filesz ≤ max sz (ph.vaddr + ph.memsz) := by
          have := le_max_right sz (ph.vaddr + ph.memsz)
          omega
        refine wp_ite.2 ⟨fun _ => ?_, fun _ => wp_ite.2 ⟨fun _ => ?_, fun h6 => ?_⟩⟩
        · rw [wp_pure]
          exact hnone l' s' hown
        · rw [wp_pure]
          exact hnone l' s' hown
        · rw [wp_bind]
          refine wp_loaduvm hown (not_not.1 h6) hoff hmax.le hend
            (fun u hu => hs'.present hmax.le hu) fun r s'' hown'' hpte htab hst => ?_
          rcases hst with rfl | ⟨rfl, hst⟩
          · rw [if_pos (by decide), wp_pure]
            exact hnone l' s'' hown''
          · rw [if_neg (by decide)]
            have hseg : ip.overlaid m ph = fun a => if ph.vaddr ≤ a ∧ a < ph.vaddr + ph.filesz then
                ip.data (ph.off + (a - ph.vaddr)) else m a := by
              funext a
              exact if_congr (and_iff_right (not_not.1 htype)) rfl rfl
            have hm'' := hm'.stored hst hmax.le hend
            rw [← hseg] at hm''
            rw [← hpte] at hs'
            refine ih hown'' ?_ hs' hmax hm'' hsome
            rw [hpte, htab]
            exact hup.grown ha hnew

/-! ## The new space -/

/-- A size and the size rounded up have the same pages. -/
theorem Sized.roundUp {f : ℕ → UInt32} (h : Sized f sz) :
    Sized f ((sz + (PGSIZE - 1)) / PGSIZE * PGSIZE) := by
  intro u hu
  rw [h u hu, mul_lt_mul_page, ← not_le, ← not_le, roundUp_le_iff]

/-- Clearing a user bit does not unmap the page. -/
theorem Sized.clearU {f : ℕ → UInt32} (h : Sized f sz) :
    Sized (update f v (Vm.clearU (f v))) sz := by
  intro u hu
  by_cases huv : u = v
  · rw [huv, update_self, present_clearU, ← huv, h u hu]
  · rw [update_of_ne huv, h u hu]

theorem Loaded.roundUp (h : Loaded mem d sz m) :
    Loaded mem d ((sz + (PGSIZE - 1)) / PGSIZE * PGSIZE) m where
  bytes a ha := h.bytes a (by
    rwa [mul_lt_mul_page, ← not_le, roundUp_le_iff, not_le] at ha)
  zero a ha := h.zero a ((roundUp_le_iff sz _).1 (le_refl _) |>.trans ha)

/-- A space that is ready for the arguments: its memory is `m`, the page `v` is out of reach of the
program, and the page behind it is the stack. -/
structure Ready (mem : ℕ → Page) (d v : ℕ) (m : ℕ → UInt8) : Prop where
  upper : Upper (pte mem d) (tab mem d)
  sized : Sized (pte mem d) ((v + 2) * PGSIZE)
  lt : (v + 2) * PGSIZE < KERNBASE
  guard : user (pte mem d v) = false
  stack : user (pte mem d (v + 1)) = true
  loaded : Loaded mem d ((v + 2) * PGSIZE) m

/-- **The stack of a loaded program.** -/
theorem wp_execSpace {Q : Option ℕ → Phys → Prop} (h : Own L A s0 s l {d} H)
    (hup : Upper (pte s.mem d) (tab s.mem d)) (hs : Sized (pte s.mem d) sz)
    (hm : Loaded s.mem d sz m) (hv : PGROUNDUP sz = v * PGSIZE)
    (hfail : ∀ l' s', Own L A s0 s' l' {d} H →
      ((v + 2) * PGSIZE < KERNBASE → Tight s0 A H ((v + 2) * PGSIZE)) → Q none s')
    (hok : ∀ l' s', Own L A s0 s' l' {d} H → Ready s'.mem d v m →
      Q (some ((v + 2) * PGSIZE)) s') : wp (execSpace L d sz) E Q s := by
  have hs := hs.roundUp
  have hm := hm.roundUp
  rw [show (sz + (PGSIZE - 1)) / PGSIZE * PGSIZE = v * PGSIZE from hv] at hs hm
  have hend : v * PGSIZE + 2 * PGSIZE = (v + 2) * PGSIZE := (add_mul ..).symm
  rw [execSpace, wp_bind, hv, hend]
  refine wp_allocuvm h (fun hnew u hge hlt => hs.absent (user_of_lt hnew.le hlt) hge)
    (fun l' s' hown _ htight => ?_) fun hnew l' s' hown ha => ?_
  · rw [if_pos rfl, wp_pure]
    exact hfail l' s' hown fun hlt => htight (fun u hu hge => hs.absent hu hge) hlt
  · have hlt : v * PGSIZE < (v + 2) * PGSIZE := mul_lt_mul_page.2 (by omega)
    have hlt' : (v + 1) * PGSIZE < (v + 2) * PGSIZE := mul_lt_mul_page.2 (by omega)
    have hs1 := hs.grown (ha.grown h)
    have hm1 := hm.grown h ha (hlt.trans hnew) hnew
    have hup1 := hup.grown ha hnew
    have hstack := ((ha.grown h).new (v + 1) (mul_le_mul_right _ (le_succ v)) hlt').2
    rw [max_eq_right hlt.le] at hs1 hm1 ⊢
    rw [if_neg (by omega), wp_bind, ← hend, Nat.add_sub_cancel]
    refine wp_clearpteu hown (hs1.present hnew.le hlt) fun s2 hown2 htab2 hpte2 hmem2 => ?_
    rw [wp_pure, hend]
    refine hok l' s2 hown2 ⟨hup1.congr (fun u hu => ?_) fun i _ => by rw [htab2], ?_, hnew, ?_, ?_,
      ⟨fun a ha' => ?_, hm1.zero⟩⟩
    · have := user_of_lt hnew.le hlt
      rw [hpte2, update_of_ne (by omega)]
    · rw [hpte2]
      exact hs1.clearU
    · rw [hpte2, update_self, user_clearU]
    · rw [hpte2, update_of_ne (by omega)]
      exact hstack
    · have htarget : ∀ u, target (pte s2.mem d u) = target (pte s'.mem d u) := fun u => by
        rw [hpte2]
        by_cases huv : u = v
        · rw [huv, update_self, target_clearU]
        · rw [update_of_ne huv]
      rw [← hm1.bytes a ha', byteAt, byteAt, page_eq hown
        (page_of_lt (lt_kernbase hnew.le ha')) (htarget _) fun m _ _ hmt _ => hmem2 m hmt]

/-- The memory that the program headers of the file describe. -/
def File.image (ip : File) : ℕ → UInt8 :=
  (ip.proghdrs ip.elfhdr.phnum ip.elfhdr.phoff).foldl ip.overlaid fun _ => 0

/-- **The new space.** Every page of it was free. -/
theorem wp_execImage {Q : Option (ℕ × Option (ℕ × ℕ)) → Phys → Prop} (ip : File)
    (h : Own L l s s l 0 0) (hnone : ∀ l' s', Own L l s s' l' 0 0 → Q none s')
    (hbad : ∀ d l' s', Own L l s s' l' {d} 0 → Q (some (d, none)) s')
    (hok : ∀ d sz v l' s', PGROUNDUP sz = v * PGSIZE → Own L l s s' l' {d} 0 →
      Ready s'.mem d v ip.image → Q (some (d, some (sz, (v + 2) * PGSIZE))) s') :
    wp (execImage L ip) E Q s := by
  rw [execImage, wp_bind]
  refine wp_setupkvm h (fun l' s' hown _ => ?_) fun d l1 s1 hown1 hk1 hpte1 htab1 hram1 => ?_
  · rw [wp_pure]
    exact hnone l' s' hown
  · dsimp only
    rw [wp_bind]
    refine wp_loadSegments (fun l2 s2 hown2 => ?_) hown1
      ⟨hk1.user, hk1.dev, hram1, fun i hi hi' => htab1 i (.inr ⟨hi, hi'⟩)⟩
      (sized_of_empty hpte1) (by decide) (m := fun _ => 0)
      ⟨fun _ h0 => absurd h0 (not_lt_zero _), fun _ _ => rfl⟩
      fun sz l2 s2 hown2 hup2 hs2 _ hm2 => ?_
    · rw [wp_pure]
      exact hbad d l2 s2 hown2
    · dsimp only
      rw [wp_bind]
      refine wp_execSpace hown2 hup2 hs2 hm2 rfl (fun l3 s3 hown3 _ => ?_)
        fun l3 s3 hown3 hr => ?_
      · rw [wp_pure]
        exact hbad d l3 s3 hown3
      · rw [wp_pure]
        exact hok d sz _ l3 s3 rfl hown3 hr

end Xv6.Vm
