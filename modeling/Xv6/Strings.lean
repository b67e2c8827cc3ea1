/-
# Strings

`strncmp` and `strncpy` of `string.c`.  A `char*` is the function that gives its
bytes; the string in its first `n` bytes (`str`) ends before the first zero byte.
Two names compare equal when their strings are equal (`strncmp_eq_zero`), and a
copy has the same string (`str_strncpy`).
-/

import Xv6.Lib.Bytes

namespace Xv6

open Lib

/-- The string in the `n` bytes of `p` from `i` on. -/
def str (p : ℕ → UInt8) : ℕ → ℕ → List UInt8
  | 0, _ => []
  | n + 1, i => if p i = 0 then [] else p i :: str p n (i + 1)

/-- The loop of `strncmp`, at position `i` with `n` bytes left. -/
def strncmpFrom (p q : ℕ → UInt8) : ℕ → ℕ → ℤ
  | 0, _ => 0
  | n + 1, i =>
      if p i ≠ 0 ∧ p i = q i then strncmpFrom p q n (i + 1)
      else (p i).toNat - (q i).toNat

/-- Compare at most `n` bytes of two strings. -/
def strncmp (p q : ℕ → UInt8) (n : ℕ) : ℤ := strncmpFrom p q n 0

/-- The loops of `strncpy`: the `n` bytes stored from `t + i`. -/
def strncpyFrom (t : ℕ → UInt8) : ℕ → ℕ → List UInt8
  | 0, _ => []
  | n + 1, i => if t i = 0 then List.replicate (n + 1) 0 else t i :: strncpyFrom t n (i + 1)

/-- The `n` bytes that `strncpy` stores. -/
def strncpy (t : ℕ → UInt8) (n : ℕ) : Buf n := fun i => (strncpyFrom t n 0).getD i 0

section Strings

variable {p q t : ℕ → UInt8}

theorem str_congr : ∀ {n i j : ℕ}, (∀ r < n, p (i + r) = q (j + r)) → str p n i = str q n j
  | 0, _, _, _ => rfl
  | n + 1, i, j, h => by
    have h0 : p i = q j := h 0 (by omega)
    have ih : str p n (i + 1) = str q n (j + 1) := str_congr fun r hr => by
      have := h (r + 1) (by omega)
      rwa [show i + (r + 1) = i + 1 + r by omega, show j + (r + 1) = j + 1 + r by omega] at this
    rw [str, str, h0, ih]

theorem strncmpFrom_eq_zero : ∀ {n i : ℕ}, strncmpFrom p q n i = 0 ↔ str p n i = str q n i
  | 0, _ => by simp [strncmpFrom, str]
  | n + 1, i => by
    rw [strncmpFrom, str, str]
    by_cases he : p i = q i
    · rw [he]
      by_cases hz : q i = 0
      · simp [hz]
      · simp [hz, strncmpFrom_eq_zero]
    · have hne : ((p i).toNat : ℤ) - (q i).toNat ≠ 0 := by
        have := mt UInt8.toNat_inj.1 he
        omega
      rw [if_neg fun h => he h.2]
      refine iff_of_false hne ?_
      split_ifs with hp hq hq
      · exact absurd (hp.trans hq.symm) he
      · simp
      · simp
      · simp [he]

/-- **`strncmp` gives `0` for equal strings.** -/
theorem strncmp_eq_zero {n : ℕ} : strncmp p q n = 0 ↔ str p n 0 = str q n 0 :=
  strncmpFrom_eq_zero

theorem str_strncpyFrom : ∀ {n i j : ℕ} {c : ℕ → UInt8},
    (∀ r < n, c (j + r) = (strncpyFrom t n i).getD r 0) → str c n j = str t n i
  | 0, _, _, _, _ => rfl
  | n + 1, i, j, c, h => by
    have h0 := h 0 (by omega)
    rw [str, str]
    rw [strncpyFrom] at h0 h
    by_cases ht : t i = 0
    · rw [if_pos ht] at h0
      rw [if_pos ht, if_pos (by simpa using h0)]
    · rw [if_neg ht] at h0 h
      have hc : c j = t i := by simpa using h0
      rw [hc, if_neg ht, if_neg ht, str_strncpyFrom (i := i + 1) (j := j + 1) fun r hr => ?_]
      have := h (r + 1) (by omega)
      rw [List.getD_cons_succ] at this
      rw [← this, show j + (r + 1) = j + 1 + r by omega]

/-- **`strncpy` copies the string.** -/
theorem str_strncpy {n : ℕ} : str (strncpy t n).byte n 0 = str t n 0 :=
  str_strncpyFrom fun r hr => by
    rw [Nat.zero_add, Buf.byte, dif_pos hr, strncpy]

end Strings
end Xv6
