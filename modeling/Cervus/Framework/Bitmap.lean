import Cervus.Framework.Bytes
import Mathlib.Data.Finset.Card
import Mathlib.Data.Nat.Bitwise

/-! # Bitmaps

    A buffer of bytes as an array of bits, eight to a byte with the lowest first, and the
    bits of a given set that are clear. Setting a clear bit takes it out of that set,
    clearing a set one puts it back; this is what allocators with counters rest on. -/

namespace Cervus.Bitmap

open Nat

/-- `(b[i / 8] >> (i % 8)) & 1` -/
def test (b : Bytes) (i : Nat) : Bool := (b (i / 8)).toNat.testBit (i % 8)

/-- `b[i / 8] |= 1 << (i % 8)` -/
def set (b : Bytes) (i : Nat) : Bytes := fun k =>
  if k = i / 8 then UInt8.ofNat ((b k).toNat ||| 1 <<< (i % 8)) else b k

/-- `b[i / 8] &= ~(1 << (i % 8))` -/
def clear (b : Bytes) (i : Nat) : Bytes := fun k =>
  if k = i / 8 then UInt8.ofNat ((b k).toNat &&& (255 ^^^ 1 <<< (i % 8))) else b k

theorem testBit_ofNat (n k : Nat) (hk : k < 8) : (UInt8.ofNat n).toNat.testBit k = n.testBit k := by
  rw [UInt8.toNat_ofNat', testBit_mod_two_pow]
  simp [hk]

theorem testBit_one_shiftLeft (i k : Nat) : (1 <<< i).testBit k = decide (k = i) := by
  rw [shiftLeft_eq, Nat.one_mul, testBit_two_pow]
  simp [eq_comm]

variable {b : Bytes} {i j : Nat}

/-- Two bits are the same when byte and position are. -/
theorem eq_iff : j = i ↔ j / 8 = i / 8 ∧ j % 8 = i % 8 := by omega

theorem test_set : test (set b i) j = if j = i then true else test b j := by
  unfold test set
  by_cases hbyte : j / 8 = i / 8
  · rw [if_pos hbyte, testBit_ofNat _ _ (mod_lt _ (by decide)), testBit_or,
      testBit_one_shiftLeft]
    by_cases hj : j = i
    · simp [hj]
    · have hbit : j % 8 ≠ i % 8 := fun h => hj (eq_iff.mpr ⟨hbyte, h⟩)
      simp [hj, hbit]
  · have hne : ¬ j = i := fun h => hbyte (eq_iff.mp h).1
    rw [if_neg hbyte, if_neg hne]

theorem test_clear : test (clear b i) j = if j = i then false else test b j := by
  unfold test clear
  by_cases hbyte : j / 8 = i / 8
  · have hlow : testBit 255 (j % 8) = true := by
      rw [show 255 = 2 ^ 8 - 1 from rfl, testBit_two_pow_sub_one]
      simp [mod_lt]
    rw [if_pos hbyte, testBit_ofNat _ _ (mod_lt _ (by decide)), testBit_and,
      testBit_xor, hlow, testBit_one_shiftLeft]
    by_cases hj : j = i
    · simp [hj]
    · have hbit : j % 8 ≠ i % 8 := fun h => hj (eq_iff.mpr ⟨hbyte, h⟩)
      simp [hj, hbit]
  · have hne : ¬ j = i := fun h => hbyte (eq_iff.mp h).1
    rw [if_neg hbyte, if_neg hne]

/-- A byte of ones. -/
theorem test_of_full (h : b (i / 8) = 0xFF) : test b i = true := by
  unfold test
  rw [h, show (0xFF : UInt8).toNat = 2 ^ 8 - 1 from rfl, testBit_two_pow_sub_one]
  simp [mod_lt]

/-! ## Clear bits -/

/-- The bits of a set that are clear. -/
def clearBits (valid : Finset Nat) (b : Bytes) : Finset Nat :=
  valid.filter fun i => test b i = false

variable {valid : Finset Nat}

theorem mem_clearBits : i ∈ clearBits valid b ↔ i ∈ valid ∧ test b i = false := Finset.mem_filter

/-- One bit of the set is changed. -/
theorem clearBits_change {b' : Bytes} {v : Bool} (hi : i ∈ valid)
    (hbits : ∀ j, test b' j = if j = i then v else test b j) : clearBits valid b' =
      if v then (clearBits valid b).erase i else insert i (clearBits valid b) := by
  ext j
  rw [mem_clearBits, hbits j]
  by_cases hj : j = i
  · cases v with
    | true => simp [hj]
    | false => simp [hj, hi]
  · cases v with
    | true => simp [hj, mem_clearBits]
    | false => simp [hj, mem_clearBits]

end Cervus.Bitmap
