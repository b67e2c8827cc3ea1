/-
# memmove

`memmove` of `string.c` on a memory of bytes with 32-bit addresses.  Where the destination starts
inside the source it copies from the end down, and otherwise from the start up; each loop stores
byte by byte and reads what the stores before have left.

`copyDown_apply` and `copyUp_apply` say what the loops leave where no byte is read after it was
overwritten, and `memmove_apply` that the test of `memmove` picks such a loop.  The end of a range
may be the end of the memory, where the pointer behind it wraps around to 0.
-/

import Mathlib.Algebra.Group.Nat.Defs
import Mathlib.Tactic.Common

namespace Xv6.Vm

open Function

/-- The memory, byte by byte. -/
abbrev Bytes := UInt32 → UInt8

/-- `while(n-- > 0) *--d = *--s;` -/
def copyDown : ℕ → UInt32 → UInt32 → Bytes → Bytes
  | 0, _, _, m => m
  | n + 1, d, s, m => copyDown n (d - 1) (s - 1) (update m (d - 1) (m (s - 1)))

/-- `while(n-- > 0) *d++ = *s++;` -/
def copyUp : ℕ → UInt32 → UInt32 → Bytes → Bytes
  | 0, _, _, m => m
  | n + 1, d, s, m => copyUp n (d + 1) (s + 1) (update m d (m s))

/-- `memmove(dst, src, n)`: the pointer it returns, and the memory. -/
def memmove (dst src n : UInt32) (m : Bytes) : UInt32 × Bytes :=
  (dst, if src < dst ∧ src + n > dst then copyDown n.toNat (dst + n) (src + n) m
    else copyUp n.toNat dst src m)

/-- **The loop from the end down**, from the ends `D` and `S` of the destination and of the source,
where the destination lies above: a store does not reach the bytes that are still to be read. -/
theorem copyDown_apply {n D S : ℕ} {d s : UInt32} {m : Bytes} (hd : d.toNat = D % 2 ^ 32)
    (hs : s.toNat = S % 2 ^ 32) (hD : D ≤ 2 ^ 32) (hn : n ≤ S) (hSD : S < D) (a : UInt32) :
    (∀ b : UInt32, D ≤ a.toNat + n → a.toNat < D → b.toNat + D = a.toNat + S →
      copyDown n d s m a = m b) ∧
    (¬(D ≤ a.toNat + n ∧ a.toNat < D) → copyDown n d s m a = m a) := by
  induction n generalizing D S d s m with
  | zero => exact ⟨fun b h1 h2 _ => by omega, fun _ => rfl⟩
  | succ n ih =>
    have hd' : (d - 1).toNat = D - 1 := by
      rw [UInt32.toNat_sub, UInt32.toNat_one]
      omega
    have hs' : (s - 1).toNat = S - 1 := by
      rw [UInt32.toNat_sub, UInt32.toNat_one]
      omega
    obtain ⟨hin, hout⟩ := ih (D := D - 1) (S := S - 1) (d := d - 1) (s := s - 1)
      (m := update m (d - 1) (m (s - 1))) (by omega) (by omega) (by omega) (by omega)
      (by omega)
    rw [copyDown]
    refine ⟨fun b h1 h2 hb => ?_, fun h => ?_⟩
    · by_cases ha : a.toNat = D - 1
      · obtain rfl : b = s - 1 := UInt32.toNat_inj.1 (by omega)
        obtain rfl : a = d - 1 := UInt32.toNat_inj.1 (by omega)
        rw [hout (by omega), update_self]
      · rw [hin b (by omega) (by omega) (by omega), update_of_ne]
        rintro rfl
        omega
    · rw [hout (by omega), update_of_ne]
      rintro rfl
      omega

/-- **The loop from the start up**, where the destination starts at or below the source, or behind
its end. -/
theorem copyUp_apply {n : ℕ} {d s : UInt32} {m : Bytes} (hd : d.toNat + n ≤ 2 ^ 32)
    (hs : s.toNat + n ≤ 2 ^ 32) (hds : d.toNat ≤ s.toNat ∨ s.toNat + n ≤ d.toNat) (a : UInt32) :
    (∀ b : UInt32, d.toNat ≤ a.toNat → a.toNat < d.toNat + n →
      b.toNat + d.toNat = a.toNat + s.toNat → copyUp n d s m a = m b) ∧
    (¬(d.toNat ≤ a.toNat ∧ a.toNat < d.toNat + n) → copyUp n d s m a = m a) := by
  induction n generalizing d s m with
  | zero => exact ⟨fun b h1 h2 _ => by omega, fun _ => rfl⟩
  | succ n ih =>
    have hd' : (d + 1).toNat = (d.toNat + 1) % 2 ^ 32 := UInt32.toNat_add d 1
    have hs' : (s + 1).toNat = (s.toNat + 1) % 2 ^ 32 := UInt32.toNat_add s 1
    obtain ⟨hin, hout⟩ := ih (d := d + 1) (s := s + 1) (m := update m d (m s)) (by omega)
      (by omega) (by omega)
    rw [copyUp]
    refine ⟨fun b h1 h2 hb => ?_, fun h => ?_⟩
    · by_cases ha : a.toNat = d.toNat
      · obtain rfl : b = s := UInt32.toNat_inj.1 (by omega)
        obtain rfl : a = d := UInt32.toNat_inj.1 ha
        rw [hout (by omega), update_self]
      · rw [hin b (by omega) (by omega) (by omega), update_of_ne]
        rintro rfl
        omega
    · rw [hout (by omega), update_of_ne]
      rintro rfl
      omega

/-- **`memmove` copies however the ranges overlap.**  For every memory and every two ranges of `n`
bytes below the end of the memory, the bytes at `dst` afterwards are those that were at `src`, and
no other byte changes. -/
theorem memmove_apply (m : Bytes) (dst src n : UInt32) (hsrc : src.toNat + n.toNat ≤ 2 ^ 32)
    (hdst : dst.toNat + n.toNat ≤ 2 ^ 32) :
    (memmove dst src n m).1 = dst ∧
    (∀ i < n, (memmove dst src n m).2 (dst + i) = m (src + i)) ∧
    ∀ a : UInt32, ¬(dst.toNat ≤ a.toNat ∧ a.toNat < dst.toNat + n.toNat) →
      (memmove dst src n m).2 a = m a := by
  have hcopy : ∀ a : UInt32, (∀ b : UInt32, dst.toNat ≤ a.toNat → a.toNat < dst.toNat + n.toNat →
        b.toNat + dst.toNat = a.toNat + src.toNat → (memmove dst src n m).2 a = m b) ∧
      (¬(dst.toNat ≤ a.toNat ∧ a.toNat < dst.toNat + n.toNat) →
        (memmove dst src n m).2 a = m a) := fun a => by
    simp only [memmove, gt_iff_lt, UInt32.lt_iff_toNat_lt, UInt32.toNat_add]
    split_ifs with h
    · obtain ⟨hin, hout⟩ := copyDown_apply (n := n.toNat) (D := dst.toNat + n.toNat)
        (S := src.toNat + n.toNat) (m := m) (UInt32.toNat_add dst n) (UInt32.toNat_add src n) hdst
        (by omega) (by omega) a
      exact ⟨fun b h₁ h₂ hb => hin b (by omega) h₂ (by omega), fun h => hout (by omega)⟩
    · exact copyUp_apply hdst hsrc (by omega) a
  refine ⟨rfl, fun i hi => ?_, fun a => (hcopy a).2⟩
  rw [UInt32.lt_iff_toNat_lt] at hi
  have hd : (dst + i).toNat = dst.toNat + i.toNat := by
    rw [UInt32.toNat_add]
    omega
  have hs : (src + i).toNat = src.toNat + i.toNat := by
    rw [UInt32.toNat_add]
    omega
  exact (hcopy (dst + i)).1 (src + i) (by omega) (by omega) (by omega)

/-- The hypotheses of `memmove_apply` are satisfiable: the last four bytes of the memory, moved up
by one. -/
theorem memmove_apply_last :
    (memmove 0xFFFFFFFC 0xFFFFFFFB 4 fun a => a.toUInt8).2 (0xFFFFFFFC + 3) = 0xFE :=
  (memmove_apply (fun a => a.toUInt8) 0xFFFFFFFC 0xFFFFFFFB 4 (by decide) (by decide)).2.1 3
    (by decide)

end Xv6.Vm
