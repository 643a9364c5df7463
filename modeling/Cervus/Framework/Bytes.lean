import Mathlib.Tactic.Ring

/-! # Buffers of bytes

    A buffer is a function from offsets to bytes. On-disk structures keep their
    integers in big-endian order (the journal) or in little-endian order (the file
    system); a field of a buffer is read by `be32` and its kin or `getLe` and replaced by
    `putBe32` or `putLe`. -/

namespace Cervus

/-- The bytes of a buffer, by offset. -/
abbrev Bytes := Nat → UInt8

/-! ## Section 1: Big-endian fields -/

def be16 (b : Bytes) (off : Nat) : Nat := (b off).toNat * 2 ^ 8 + (b (off + 1)).toNat

def be32 (b : Bytes) (off : Nat) : Nat := be16 b off * 2 ^ 16 + be16 b (off + 2)

def be64 (b : Bytes) (off : Nat) : Nat := be32 b off * 2 ^ 32 + be32 b (off + 4)

def putBe32 (b : Bytes) (off v : Nat) : Bytes := fun i =>
  if off ≤ i ∧ i < off + 4 then UInt8.ofNat (v / 2 ^ (8 * (3 - (i - off)))) else b i

theorem be16_lt (b : Bytes) (off : Nat) : be16 b off < 2 ^ 16 := by
  have h1 := (b off).toNat_lt
  have h2 := (b (off + 1)).toNat_lt
  unfold be16
  omega

theorem be32_lt (b : Bytes) (off : Nat) : be32 b off < 2 ^ 32 := by
  have h1 := be16_lt b off
  have h2 := be16_lt b (off + 2)
  unfold be32
  omega

/-! ## Section 2: Little-endian fields -/

/-- The `n` bytes from `off` on. -/
def getLe : Nat → Bytes → Nat → Nat
  | 0, _, _ => 0
  | n + 1, b, off => (b off).toNat + getLe n b (off + 1) * 2 ^ 8

def putLe (n : Nat) (b : Bytes) (off v : Nat) : Bytes := fun i =>
  if off ≤ i ∧ i < off + n then UInt8.ofNat (v / 2 ^ (8 * (i - off))) else b i

section Little

variable {b b' : Bytes} {m n off off' v i : Nat}

theorem getLe_lt (n : Nat) (b : Bytes) (off : Nat) : getLe n b off < 2 ^ (8 * n) := by
  induction n generalizing off with
  | zero => exact Nat.one_pos
  | succ n ih =>
    have hbyte := (b off).toNat_lt
    have hrest := ih (off + 1)
    rw [getLe, Nat.mul_succ, Nat.pow_add]
    omega

theorem getLe_congr (h : ∀ i, off ≤ i → i < off + n → b' i = b i) :
    getLe n b' off = getLe n b off := by
  induction n generalizing off with
  | zero => rfl
  | succ n ih =>
    rw [getLe, getLe, h off (by omega) (by omega), ih fun i h1 h2 => h i (by omega) (by omega)]

theorem putLe_of_ne (h : i < off ∨ off + n ≤ i) : putLe n b off v i = b i :=
  if_neg (by omega)

/-- The bytes from `off + k` on are those of `v` without the lowest `k`. -/
theorem getLe_putLe_from (k : Nat) (h : k + n ≤ m) :
    getLe n (putLe m b off v) (off + k) = v / 2 ^ (8 * k) % 2 ^ (8 * n) := by
  induction n generalizing k with
  | zero => rw [getLe, Nat.mul_zero, Nat.pow_zero, Nat.mod_one]
  | succ n ih =>
    have hbyte : (putLe m b off v (off + k)).toNat = v / 2 ^ (8 * k) % 2 ^ 8 := by
      unfold putLe
      rw [if_pos (by omega), Nat.add_sub_cancel_left, UInt8.toNat_ofNat']
    rw [getLe, hbyte, Nat.add_assoc, ih (k + 1) (by omega), Nat.mul_succ 8 k, Nat.pow_add,
      ← Nat.div_div_eq_div_mul, Nat.mul_succ, Nat.add_comm (8 * n), Nat.pow_add, Nat.mod_mul,
      Nat.mul_comm (2 ^ 8)]

theorem getLe_putLe : getLe n (putLe n b off v) off = v % 2 ^ (8 * n) := by
  simpa using getLe_putLe_from 0 (Nat.le_of_eq (Nat.zero_add n))

theorem getLe_putLe_ne (h : off' + n ≤ off ∨ off + n ≤ off') :
    getLe n (putLe n b off v) off' = getLe n b off' :=
  getLe_congr fun i h1 h2 => putLe_of_ne (by omega)

end Little

end Cervus
