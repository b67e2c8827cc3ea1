/-
# An argument that is too long for exec

`exec` computes the address of an argument string as `(sp - (strlen(argv[argc]) + 1)) & ~3` in 32
bits. For a string of some more than 32 MB the address is below the devices and above physical
memory, where no space has a page table. `uva2ka` then takes the word at address 0 of the calling
process for the page table entry, and `copyout` writes the string to the physical page that it names
(`exec_overrun`), before it fails at the first page of the devices.
-/
import Xv6.Vm.Owner

namespace Xv6.Vm

open Function Lib List Multiset Ptable

variable {L : Layout} {A D H : Multiset ℕ} {s0 s : Phys} {l : List ℕ} {d m n cur : ℕ}
  {E : Fail → Prop}

/-- A store to a page of somebody else. -/
theorem Own.outside (h : Own L A s0 s l D H) (hm : m ∉ A) (b : Page) :
    Own L A { s with mem := update s.mem m b } { s with mem := update s.mem m b }
        l D H ∧
      ∀ d ∈ D, tab (update s.mem m b) d = tab s.mem d ∧
        pte (update s.mem m b) d = pte s.mem d := by
  have hkeep : ∀ n ∈ A, update s.mem m b n = s.mem n := fun n hn =>
    update_of_ne (by rintro rfl; exact hm hn) _ _
  have hpages : ∀ d ∈ D, pages (update s.mem m b) d = pages s.mem d ∧
      tab (update s.mem m b) d = tab s.mem d ∧
      pte (update s.mem m b) d = pte s.mem d := fun d hd =>
    pages_congr fun n hn => hkeep n (h.mem_of_pages hd hn)
  refine ⟨⟨h.nodup, h.ram, h.free.congr fun n hn => hkeep n (h.mem_of_free hn), ?_,
    fun _ _ => rfl, rfl⟩, fun d hd => (hpages d hd).2⟩
  rw [← h.sum, bind_congr fun d hd => (hpages d hd).1]

/-- The string. -/
def longArg : List UInt8 := replicate 0x2002FFF 1

/-- A program without segments. -/
def bareElf : File where
  size := 52
  data := fun i => if i = 0 then 0x7F else if i = 1 then 0x45 else if i = 2 then 0x4C else
    if i = 3 then 0x46 else 0

/-- **The space of the program**, with memory to spare. -/
theorem wp_execImage_bare {Q : Option (ℕ × Option (ℕ × ℕ)) → Phys → Prop} (h : Own L l s s l 0 0)
    (hl : 3000 ≤ l.length) (hden : ∀ i, s.denied i = false)
    (hQ : ∀ d l' s', Own L l s s' l' {d} 0 → Ready s'.mem d 0 bareElf.image →
      Q (some (d, some (0, 2 * PGSIZE))) s') : wp (execImage L bareElf) E Q s := by
  have hplenty : ∀ c ≤ 2000, ¬((∃ i, s.denied i = true) ∨ card (l : Multiset ℕ) ≤ c) := by
    rintro c hc (⟨i, hi⟩ | hcard)
    · rw [hden i] at hi
      cases hi
    · rw [coe_card] at hcard
      omega
  rw [execImage, wp_bind]
  refine wp_setupkvm h (fun l' s' hown hscarce => absurd hscarce (hplenty _ (by decide)))
    fun d l1 s1 hown1 hk1 hpte1 htab1 hram1 => ?_
  dsimp only
  rw [show bareElf.elfhdr.phnum = 0 by decide, loadSegments, pure_bind, wp_bind]
  refine wp_execSpace (v := 0) (m := bareElf.image) hown1
    ⟨hk1.user, hk1.dev, hram1, fun i hi hi' => htab1 i (.inr ⟨hi, hi'⟩)⟩ (sized_of_empty hpte1)
    ⟨fun _ h0 => absurd h0 (Nat.not_lt_zero _), fun _ _ => ?_⟩ (by decide)
    (fun l' s' _ htight => absurd (htight (by decide)) (hplenty _ (by decide)))
    fun l' s' hown hr => wp_pure.2 (hQ d l' s' hown hr)
  rw [File.image, show bareElf.elfhdr.phnum = 0 by decide]
  rfl

end Xv6.Vm
