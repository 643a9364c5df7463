import Mathlib.Tactic.Ring

/-! # Machine words

    Unsigned C arithmetic on natural numbers: a value of a `w`-bit type is a
    natural number below `2 ^ w`, and every operation that can leave the range
    is followed by a reduction.

    Serial numbers (32-bit counters that wrap, compared through the sign of
    their difference) are the values `serial base p` of an unbounded position
    `p`; `i32_sub_serial` says when the comparison of two of them is the
    comparison of their positions. -/

namespace Cervus

/-! ## Section 1: 64-bit words -/

/-- Reduction to `uint64_t` / `size_t` / `uintptr_t`. -/
def u64 (n : Nat) : Nat := n % 2 ^ 64

/-- Unsigned 64-bit subtraction. -/
def sub64 (a b : Nat) : Nat := u64 (a + (2 ^ 64 - u64 b))

variable {n base : Nat}

theorem u64_of_lt (h : n < 2 ^ 64) : u64 n = n := Nat.mod_eq_of_lt h

theorem sub64_of_le {a b : Nat} (ha : a < 2 ^ 64) (h : b ≤ a) :
    sub64 a b = a - b := by
  unfold sub64 u64
  omega

/-! ## Section 2: 32-bit words -/

/-- Reduction to `uint32_t`. -/
def u32 (n : Nat) : Nat := n % 2 ^ 32

/-- Unsigned 32-bit subtraction. -/
def sub32 (a b : Nat) : Nat := u32 (a + (2 ^ 32 - u32 b))

/-- The cast of a 32-bit value to `int32_t`. -/
def i32 (n : Nat) : Int := if u32 n < 2 ^ 31 then u32 n else (u32 n : Int) - 2 ^ 32

theorem u32_of_lt (h : n < 2 ^ 32) : u32 n = n := Nat.mod_eq_of_lt h

theorem u32_lt (n : Nat) : u32 n < 2 ^ 32 := Nat.mod_lt _ (by decide)

theorem i32_of_lt (h : n < 2 ^ 31) : i32 n = n := by
  unfold i32 u32
  split <;> omega

theorem pos_of_i32 (h : 0 < i32 n) : 0 < n := by
  unfold i32 u32 at h
  omega

theorem sub32_of_le {a b : Nat} (ha : a < 2 ^ 32) (h : b ≤ a) : sub32 a b = a - b := by
  unfold sub32 u32
  omega

/-! ## Section 3: Serial numbers -/

/-- The 32-bit serial number of position `p` of a sequence that starts at `base`. -/
def serial (base : Nat) (p : Int) : Nat := ((base + p) % 2 ^ 32).toNat

theorem serial_lt (base : Nat) (p : Int) : serial base p < 2 ^ 32 := by
  unfold serial
  omega

theorem u32_serial_add (base n : Nat) (p : Int) :
    u32 (serial base p + n) = serial base (p + n) := by
  unfold u32 serial
  omega

/-- **Serial comparison.** Within half the number space, the signed difference
    of two serial numbers is the difference of their positions. -/
theorem i32_sub_serial {p q : Int} (hlo : -2 ^ 31 ≤ p - q) (hhi : p - q < 2 ^ 31) :
    i32 (sub32 (serial base p) (serial base q)) = p - q := by
  unfold i32 sub32 u32 serial
  split <;> omega

theorem sub32_serial {a b : Nat} (hle : b ≤ a) (hlt : a < b + 2 ^ 32) :
    sub32 (serial base a) (serial base b) = a - b := by
  unfold sub32 u32 serial
  omega

/-- Serial numbers less than one turn apart are equal only at equal positions. -/
theorem serial_inj {p q : Int} (hlo : -2 ^ 32 < p - q) (hhi : p - q < 2 ^ 32)
    (h : serial base p = serial base q) : p = q := by
  unfold serial at h
  omega

end Cervus
