/-
# Byte buffers and little-endian fields

A buffer of `n` bytes is a function on `Fin n`, read with `Buf.byte` (which is
`0` past the end) and written with `Buf.overlay`, the effect of copying `m`
bytes of a source to offset `off`.  An integer of `w` bytes is stored least
significant byte first: `leByte` gives its bytes and `Buf.getLE` reads them
back.  `Buf.bit` reads one bit of the buffer taken as a bit map, bit `i` being
bit `i % 8` of byte `i / 8`.

Two lemmas do most of the work below: a field keeps its value under every
overlay that misses its bytes (`getLE_congr` with `byte_overlay_of_not`), and a
field whose bytes are those of `v` reads as `v` (`getLE_of_bytes`).
-/

import Mathlib.Data.Nat.Bitwise
import Mathlib.Tactic.Ring

namespace Xv6.Lib

open Nat

/-- A buffer of `n` bytes. -/
abbrev Buf (n : ℕ) := Fin n → UInt8

namespace Buf

variable {n : ℕ} {b : Buf n}

/-- Byte `i` of the buffer, `0` past its end. -/
def byte (b : Buf n) (i : ℕ) : UInt8 := if h : i < n then b ⟨i, h⟩ else 0

/-- The buffer after `memmove(b + off, p, m)`. -/
def overlay (b : Buf n) (off m : ℕ) (p : ℕ → UInt8) : Buf n := fun i =>
  if off ≤ i.val ∧ i.val < off + m then p (i.val - off) else b i

/-- The buffer `memset` to `0`. -/
def zero : Buf n := fun _ => 0

@[simp] theorem byte_zero (i : ℕ) : (zero : Buf n).byte i = 0 := by
  unfold byte zero; split_ifs <;> rfl

/-- Two buffers with the same bytes are equal. -/
theorem ext_byte {c : Buf n} (h : ∀ i < n, b.byte i = c.byte i) : b = c := by
  funext i
  simpa [byte] using h i.val i.isLt

theorem byte_overlay_of_mem {off m i : ℕ} {p : ℕ → UInt8} (h1 : off ≤ i)
    (h2 : i < off + m) (hn : i < n) : (b.overlay off m p).byte i = p (i - off) := by
  simp [byte, overlay, hn, h1, h2]

theorem byte_overlay_of_not {off m i : ℕ} {p : ℕ → UInt8}
    (h : i < off ∨ off + m ≤ i) : (b.overlay off m p).byte i = b.byte i := by
  unfold byte overlay
  split_ifs with hn hm
  · exact absurd hm (by rw [Fin.val_mk]; omega)
  · rfl
  · rfl

/-- Bytes that are written twice hold the second value. -/
theorem overlay_overlay (b : Buf n) (off m : ℕ) (p q : ℕ → UInt8) :
    (b.overlay off m p).overlay off m q = b.overlay off m q := by
  funext i
  unfold overlay
  split_ifs <;> rfl

/-- The number stored least significant byte first in the `w` bytes at `off`. -/
def getLE (b : Buf n) (off : ℕ) : ℕ → ℕ
  | 0 => 0
  | w + 1 => (b.byte off).toNat + 256 * getLE b (off + 1) w

end Buf

/-- Byte `r` of `v`, least significant first. -/
def leByte (v r : ℕ) : UInt8 := UInt8.ofNat (v / 256 ^ r)

namespace Buf

variable {n : ℕ} {b : Buf n} {v : UInt32}

/-- A field depends on its own bytes only. -/
theorem getLE_congr {c : Buf n} {off off' : ℕ} :
    ∀ {w : ℕ}, (∀ r < w, b.byte (off + r) = c.byte (off' + r)) →
      b.getLE off w = c.getLE off' w
  | 0, _ => rfl
  | w + 1, h => by
    have h0 := h 0 (by omega)
    have ih : b.getLE (off + 1) w = c.getLE (off' + 1) w := getLE_congr fun r hr => by
      have := h (r + 1) (by omega)
      rwa [show off + (r + 1) = off + 1 + r by omega,
        show off' + (r + 1) = off' + 1 + r by omega] at this
    simp only [getLE, ih, add_zero] at h0 ⊢
    rw [h0]

/-- **A field that holds the bytes of `v` reads as `v`**, up to its width. -/
theorem getLE_of_bytes :
    ∀ {w off v : ℕ}, (∀ r < w, b.byte (off + r) = leByte v r) → b.getLE off w = v % 256 ^ w
  | 0, _, _, _ => by simp [getLE, Nat.mod_one]
  | w + 1, off, v, h => by
    have h0 := h 0 (by omega)
    have ih : b.getLE (off + 1) w = v / 256 % 256 ^ w := getLE_of_bytes fun r hr => by
      rw [show off + 1 + r = off + (r + 1) by omega, h (r + 1) (by omega), leByte, leByte,
        pow_succ', Nat.div_div_eq_div_mul]
    rw [add_zero] at h0
    rw [pow_succ', Nat.mod_mul, getLE, ih, h0, leByte, pow_zero, Nat.div_one, UInt8.toNat_ofNat']

/-- The bytes of a field are the bytes of the number it holds. -/
theorem leByte_getLE (b : Buf n) : ∀ {w off r : ℕ}, r < w →
    leByte (b.getLE off w) r = b.byte (off + r)
  | w + 1, off, 0, _ => by
    apply UInt8.toNat_inj.1
    have := (b.byte off).toNat_lt
    simp only [leByte, UInt8.toNat_ofNat', getLE, pow_zero, Nat.div_one, add_zero]
    omega
  | w + 1, off, r + 1, h => by
    have := (b.byte off).toNat_lt
    rw [leByte, getLE, pow_succ', ← Nat.div_div_eq_div_mul,
      show ((b.byte off).toNat + 256 * b.getLE (off + 1) w) / 256 = b.getLE (off + 1) w by omega,
      ← leByte, leByte_getLE b (lt_of_succ_lt_succ h), add_assoc, add_comm 1 r]

theorem getLE_lt (b : Buf n) : ∀ (w off : ℕ), b.getLE off w < 256 ^ w
  | 0, _ => by simp [getLE]
  | w + 1, off => by
    have h0 := (b.byte off).toNat_lt
    have h1 := getLE_lt b w (off + 1)
    rw [getLE, pow_succ']
    omega

theorem getLE_zero : ∀ (w off : ℕ), (zero : Buf n).getLE off w = 0
  | 0, _ => rfl
  | w + 1, off => by simp [getLE, getLE_zero w (off + 1)]

/-- An overlay that misses a field keeps its value. -/
theorem getLE_overlay_of_not {off m off' w : ℕ} {p : ℕ → UInt8}
    (h : off' + w ≤ off ∨ off + m ≤ off') : (b.overlay off m p).getLE off' w = b.getLE off' w :=
  getLE_congr fun _ _ => byte_overlay_of_not (by omega)

/-- The `uint` at byte offset `off`. -/
def getU32 (b : Buf n) (off : ℕ) : UInt32 := UInt32.ofNat (b.getLE off 4)

/-- The `ushort` at byte offset `off`. -/
def getU16 (b : Buf n) (off : ℕ) : UInt16 := UInt16.ofNat (b.getLE off 2)

/-- The buffer with the `uint` `v` stored at `off`. -/
def putU32 (b : Buf n) (off : ℕ) (v : UInt32) : Buf n := b.overlay off 4 (leByte v.toNat)

theorem getU32_of_bytes {off : ℕ}
    (h : ∀ r < 4, b.byte (off + r) = leByte v.toNat r) : b.getU32 off = v := by
  rw [getU32, getLE_of_bytes h, mod_eq_of_lt (show v.toNat < 256 ^ 4 from v.toNat_lt),
    UInt32.ofNat_toNat]

theorem getU16_of_bytes {off : ℕ} {v : UInt16}
    (h : ∀ r < 2, b.byte (off + r) = leByte v.toNat r) : b.getU16 off = v := by
  rw [getU16, getLE_of_bytes h, mod_eq_of_lt (show v.toNat < 256 ^ 2 from v.toNat_lt),
    UInt16.ofNat_toNat]

theorem getU32_putU32 {off : ℕ} (h : off + 4 ≤ n) : (b.putU32 off v).getU32 off = v :=
  getU32_of_bytes fun r hr => by
    rw [putU32, byte_overlay_of_mem (by omega) (by omega) (by omega), Nat.add_sub_cancel_left]

theorem getU32_overlay_of_not {off m off' : ℕ} {p : ℕ → UInt8}
    (h : off' + 4 ≤ off ∨ off + m ≤ off') : (b.overlay off m p).getU32 off' = b.getU32 off' := by
  rw [getU32, getU32, getLE_overlay_of_not h]

theorem getU32_putU32_of_ne {off off' : ℕ}
    (h : off' + 4 ≤ off ∨ off + 4 ≤ off') : (b.putU32 off v).getU32 off' = b.getU32 off' :=
  getU32_overlay_of_not h

/-- Storing the value a field has changes nothing. -/
theorem putU32_getU32 (b : Buf n) (off : ℕ) : b.putU32 off (b.getU32 off) = b := by
  refine ext_byte fun i hi => ?_
  by_cases h : off ≤ i ∧ i < off + 4
  · rw [putU32, byte_overlay_of_mem h.1 h.2 hi, getU32, UInt32.toNat_ofNat',
      mod_eq_of_lt (show b.getLE off 4 < 2 ^ 32 from b.getLE_lt 4 off), leByte_getLE b (by omega),
      Nat.add_sub_cancel' h.1]
  · exact byte_overlay_of_not (by omega)

/-- A field past the end reads as `0`. -/
theorem getU32_of_le {off : ℕ} (h : n ≤ off) : b.getU32 off = 0 :=
  getU32_of_bytes fun r hr => by
    rw [byte, dif_neg (by omega)]
    simp [leByte]

@[simp] theorem getU32_zero (off : ℕ) : (zero : Buf n).getU32 off = 0 := by
  rw [getU32, getLE_zero]; rfl

@[simp] theorem getU16_zero (off : ℕ) : (zero : Buf n).getU16 off = 0 := by
  rw [getU16, getLE_zero]; rfl

end Buf

/-- `1 << (i % 8)`. -/
def bitMask (i : ℕ) : UInt8 := 1 <<< UInt8.ofNat (i % 8)

theorem getLsbD_bitMask {i k : ℕ} (hk : k < 8) :
    (bitMask i).toBitVec.getLsbD k = decide (k = i % 8) := by
  have h : ∀ j < 8, ∀ k < 8,
      ((1 : UInt8) <<< UInt8.ofNat j).toBitVec.getLsbD k = decide (k = j) := by decide
  exact h _ (mod_lt _ (by omega)) k hk

namespace Buf

variable {n : ℕ} {b : Buf n} {i : ℕ}

/-- Bit `i` of the buffer as a bit map: `b[i/8] & (1 << (i % 8))`. -/
def bit (b : Buf n) (i : ℕ) : Bool := b.byte (i / 8) &&& bitMask i != 0

/-- The buffer after `b[i/8] |= 1 << (i % 8)`. -/
def setBit (b : Buf n) (i : ℕ) : Buf n :=
  b.overlay (i / 8) 1 fun _ => b.byte (i / 8) ||| bitMask i

/-- The buffer after `b[i/8] &= ~(1 << (i % 8))`. -/
def clearBit (b : Buf n) (i : ℕ) : Buf n :=
  b.overlay (i / 8) 1 fun _ => b.byte (i / 8) &&& ~~~ bitMask i

/-- The masked byte is nonzero exactly when bit `i % 8` of it is set. -/
theorem bit_eq (b : Buf n) (i : ℕ) : b.bit i = (b.byte (i / 8)).toBitVec.getLsbD (i % 8) := by
  have hi : i % 8 < 8 := mod_lt _ (by omega)
  have hand : b.byte (i / 8) &&& bitMask i = 0 ↔
      (b.byte (i / 8)).toBitVec.getLsbD (i % 8) = false := by
    rw [← UInt8.toBitVec_inj, UInt8.toBitVec_and]
    refine ⟨fun h => ?_, fun h => BitVec.eq_of_getLsbD_eq fun k hk => ?_⟩
    · have := congrArg (·.getLsbD (i % 8)) h
      simpa [BitVec.getLsbD_and, getLsbD_bitMask hi] using this
    · rw [BitVec.getLsbD_and, getLsbD_bitMask hk]
      by_cases hki : k = i % 8
      · subst hki; simp [h]
      · simp [hki]
  rw [bit, Bool.eq_iff_iff, bne_iff_ne, ne_eq, hand, Bool.not_eq_false]

theorem ext_bit {c : Buf n} (h : ∀ i, b.bit i = c.bit i) : b = c := by
  refine ext_byte fun i _ => UInt8.toBitVec_inj.1 (BitVec.eq_of_getLsbD_eq fun k hk => ?_)
  have := h (8 * i + k)
  rwa [bit_eq, bit_eq, show (8 * i + k) / 8 = i by omega, show (8 * i + k) % 8 = k by omega] at this

theorem bit_zero (i : ℕ) : (zero : Buf n).bit i = false := by simp [bit]

theorem bit_setBit_self (h : i / 8 < n) : (b.setBit i).bit i = true := by
  rw [bit_eq, setBit, byte_overlay_of_mem le_rfl (by omega) h, UInt8.toBitVec_or,
    BitVec.getLsbD_or, getLsbD_bitMask (mod_lt _ (by omega))]
  simp

theorem bit_setBit_of_ne {j : ℕ} (h : j ≠ i) : (b.setBit i).bit j = b.bit j := by
  rw [bit_eq, bit_eq, setBit]
  by_cases hij : j / 8 = i / 8
  · by_cases hn : j / 8 < n
    · rw [byte_overlay_of_mem (by omega) (by omega) hn, UInt8.toBitVec_or, BitVec.getLsbD_or,
        getLsbD_bitMask (mod_lt _ (by omega)), decide_eq_false (by omega), Bool.or_false, hij]
    · simp [byte, hn]
  · rw [byte_overlay_of_not (by omega)]

theorem bit_clearBit_self : (b.clearBit i).bit i = false := by
  have hi : i % 8 < 8 := mod_lt _ (by omega)
  rw [bit_eq, clearBit]
  by_cases hn : i / 8 < n
  · rw [byte_overlay_of_mem le_rfl (by omega) hn, UInt8.toBitVec_and, UInt8.toBitVec_not,
      BitVec.getLsbD_and, BitVec.getLsbD_not, getLsbD_bitMask hi]
    simp
  · simp [byte, hn]

theorem bit_clearBit_of_ne {j : ℕ} (h : j ≠ i) : (b.clearBit i).bit j = b.bit j := by
  have hj : j % 8 < 8 := mod_lt _ (by omega)
  rw [bit_eq, bit_eq, clearBit]
  by_cases hij : j / 8 = i / 8
  · by_cases hn : j / 8 < n
    · rw [byte_overlay_of_mem (by omega) (by omega) hn, UInt8.toBitVec_and, UInt8.toBitVec_not,
        BitVec.getLsbD_and, BitVec.getLsbD_not, getLsbD_bitMask hj,
        show decide (j % 8 = i % 8) = false from decide_eq_false (by omega), hij]
      simp [hj]
    · simp [byte, hn]
  · rw [byte_overlay_of_not (by omega)]

end Buf
end Xv6.Lib
