import Mathlib.AlgebraicGeometry.EllipticCurve.Affine.Point

/-! # The group operations of P-256

    `p256.c` keeps a point as `(X, Y, Z)` for `(X / Z², Y / Z³)`, with `Z = 0` at infinity.
    The field is exact: `mont_mul`, `fadd` and `fsub` are its operations, on any field in
    which two is not zero, and the curve is `y² = x³ - 3x + b`. The group is that of
    Mathlib, chord and tangent. -/

namespace Cervus.P256

open WeierstrassCurve.Affine

variable {F : Type*} [Field F]

/-! ## Section 1: The code -/

structure Jpoint (F : Type*) where
  X : F
  Y : F
  Z : F

def smallMul (a : F) (k : Nat) : F := (fun acc => acc + a)^[k] 0

abbrev Jpoint.isInf (P : Jpoint F) : Prop := P.Z = 0

/-- What `memset` leaves -/
def Jpoint.cleared : Jpoint F := ⟨0, 0, 0⟩

@[simp] theorem smallMul_eq (a : F) (k : Nat) : smallMul a k = k * a := by
  induction k with
  | zero => simp [smallMul]
  | succ k ih =>
    rw [smallMul] at ih ⊢
    rw [Function.iterate_succ_apply', ih]
    push_cast
    ring

variable [DecidableEq F]

def pDouble (P : Jpoint F) : Jpoint F :=
  if P.isInf then .cleared
  else
    let delta := P.Z * P.Z
    let gamma := P.Y * P.Y
    let beta := P.X * gamma
    let alpha := smallMul ((P.X - delta) * (P.X + delta)) 3
    let x3 := alpha * alpha - smallMul beta 8
    let z3 := (P.Y + P.Z) * (P.Y + P.Z) - gamma - delta
    let y3 := alpha * (smallMul beta 4 - x3) - smallMul (gamma * gamma) 8
    ⟨x3, y3, z3⟩

def pAdd (P Q : Jpoint F) : Jpoint F :=
  if P.isInf then Q
  else if Q.isInf then P
  else
    let z1z1 := P.Z * P.Z
    let z2z2 := Q.Z * Q.Z
    let u1 := P.X * z2z2
    let u2 := Q.X * z1z1
    let s1 := P.Y * Q.Z * z2z2
    let s2 := Q.Y * P.Z * z1z1
    let h := u2 - u1
    let r := s2 - s1
    if h = 0 then
      if r = 0 then pDouble P else .cleared
    else
      let r := smallMul r 2
      let i := smallMul h 2 * smallMul h 2
      let j := h * i
      let v := u1 * i
      let x3 := r * r - j - smallMul v 2
      let y3 := r * (v - x3) - smallMul (s1 * j) 2
      let z3 := ((P.Z + Q.Z) * (P.Z + Q.Z) - z1z1 - z2z2) * h
      ⟨x3, y3, z3⟩

/-- `(k[i >> 6] >> (i & 63)) & 1` -/
def scalarBit (k : Nat → BitVec 64) (i : Nat) : Bool := (k (i / 64)).getLsbD (i % 64)

/-- One round of `scalarmult` on `acc` and `started`. -/
def scalarmultRound (k : Nat → BitVec 64) (P : Jpoint F) (i : Nat) (s : Jpoint F × Bool) :
    Jpoint F × Bool :=
  let acc := if s.2 then pDouble s.1 else s.1
  if scalarBit k i then
    if s.2 then (pAdd acc P, true) else (P, true)
  else (acc, s.2)

/-- The rounds for the bits below `i`, highest first. -/
def scalarmultLoop (k : Nat → BitVec 64) (P : Jpoint F) : Nat → Jpoint F × Bool → Jpoint F × Bool
  | 0, s => s
  | i + 1, s => scalarmultLoop k P i (scalarmultRound k P i s)

def scalarmult (k : Nat → BitVec 64) (P : Jpoint F) : Jpoint F :=
  (scalarmultLoop k P 256 (.cleared, false)).1

/-- The number in the four words of `k` -/
def scalar (k : Nat → BitVec 64) : Nat := (k 3 ++ k 2 ++ k 1 ++ k 0).toNat

/-! ## Section 2: Points and their representations -/

/-- `y² = x³ - 3x + b` -/
def curve (b : F) : WeierstrassCurve.Affine F := ⟨0, 0, 0, -3, b⟩

variable {b : F}

/-- `P` stands for the point, with any projective factor. -/
def Jpoint.Represents (P : Jpoint F) : (curve b).Point → Prop
  | .zero => P.Z = 0
  | .some x y _ => P.Z ≠ 0 ∧ P.X = x * P.Z ^ 2 ∧ P.Y = y * P.Z ^ 3

variable {P Q : Jpoint F} {p q : (curve b).Point}

/-- What one chord or tangent does: the sum is read off the slope. -/
theorem Jpoint.Represents.of_slope {x1 y1 x2 y2 : F} {h1 : (curve b).Nonsingular x1 y1}
    {h2 : (curve b).Nonsingular x2 y2} (hne : ¬(x1 = x2 ∧ y1 = (curve b).negY x2 y2))
    {R : Jpoint F} {l : F} (hl : (curve b).slope x1 x2 y1 y2 = l) (hZ : R.Z ≠ 0)
    (hX : R.X = (l ^ 2 - x1 - x2) * R.Z ^ 2)
    (hY : R.Y = (l * (x1 - (l ^ 2 - x1 - x2)) - y1) * R.Z ^ 3) :
    R.Represents (Point.some x1 y1 h1 + Point.some x2 y2 h2) := by
  rw [Point.add_some hne]
  refine ⟨hZ, ?_, ?_⟩
  · rw [hX, hl, addX]
    simp [curve]
  · rw [hY, hl, addY, negAddY, addX, negY]
    simp only [curve]
    ring

theorem pDouble_represents (h2 : (2 : F) ≠ 0) (hP : P.Represents p) :
    (pDouble P).Represents (p + p) := by
  rcases p with _ | ⟨x, y, h⟩
  · rw [pDouble, if_pos (show P.isInf from hP)]
    exact rfl
  obtain ⟨hZ, hX, hY⟩ := hP
  rw [pDouble, if_neg hZ]
  by_cases hy : y = 0
  · -- the tangent is vertical, and the new `Z` is `2 Y Z`
    rw [Point.add_self_of_Y_eq (by simp [hy, negY, curve])]
    show _ - _ - _ = (0 : F)
    rw [hY, hy]
    ring
  have hne : y ≠ (curve b).negY x y := by
    intro hself
    have hsum : 2 * y = 0 := by
      simp only [negY, curve, zero_mul, sub_zero] at hself
      linear_combination hself
    exact (mul_ne_zero h2 hy) hsum
  have hden : y - (curve b).negY x y = 2 * y := by
    simp [negY, curve]
    ring
  refine .of_slope (l := 3 * (x ^ 2 - 1) / (2 * y)) (fun hxy => hne hxy.2) ?_ ?_ ?_ ?_
  · rw [slope_of_Y_ne rfl hne, hden]
    simp [curve]
    ring
  · have hz3 : (P.Y + P.Z) * (P.Y + P.Z) - P.Y * P.Y - P.Z * P.Z = 2 * y * P.Z ^ 4 := by
      rw [hY]
      ring
    simp only [hz3]
    exact mul_ne_zero (mul_ne_zero h2 hy) (pow_ne_zero 4 hZ)
  · simp only [smallMul_eq, hX, hY]
    push_cast
    field_simp
    ring
  simp only [smallMul_eq, hX, hY]
  push_cast
  field_simp
  ring

theorem pAdd_represents (h2 : (2 : F) ≠ 0) (hP : P.Represents p) (hQ : Q.Represents q) :
    (pAdd P Q).Represents (p + q) := by
  rcases p with _ | ⟨x1, y1, h1⟩
  · rw [pAdd, if_pos (show P.isInf from hP)]
    exact (zero_add q).symm ▸ hQ
  rcases q with _ | ⟨x2, y2, hq⟩
  · rw [pAdd, if_neg hP.1, if_pos (show Q.isInf from hQ)]
    exact hP
  obtain ⟨hZ1, hX1, hY1⟩ := id hP
  obtain ⟨hZ2, hX2, hY2⟩ := hQ
  have hh : Q.X * (P.Z * P.Z) - P.X * (Q.Z * Q.Z) = (x2 - x1) * (P.Z * Q.Z) ^ 2 := by
    rw [hX1, hX2]
    ring
  have hr : Q.Y * P.Z * (P.Z * P.Z) - P.Y * Q.Z * (Q.Z * Q.Z) = (y2 - y1) * (P.Z * Q.Z) ^ 3 := by
    rw [hY1, hY2]
    ring
  have hZZ : P.Z * Q.Z ≠ 0 := mul_ne_zero hZ1 hZ2
  rw [pAdd, if_neg hZ1, if_neg hZ2]
  simp only [hh, hr, mul_eq_zero, pow_eq_zero_iff, hZZ, ne_eq, OfNat.ofNat_ne_zero,
    not_false_eq_true, or_false, sub_eq_zero]
  by_cases hx : x2 = x1
  · subst hx
    rw [if_pos rfl]
    by_cases hy : y2 = y1
    · subst hy
      rw [if_pos rfl]
      exact pDouble_represents h2 hP
    -- the curve has two points with this `x`
    rw [if_neg hy, Point.add_of_Y_eq rfl]
    · exact rfl
    · exact (Y_eq_of_X_eq h1.1 hq.1 rfl).resolve_left fun h => hy h.symm
  have hsub : x2 - x1 ≠ 0 := sub_ne_zero.mpr hx
  rw [if_neg hx]
  refine .of_slope (l := (y2 - y1) / (x2 - x1)) (fun hxy => hx hxy.1.symm) ?_ ?_ ?_ ?_
  · rw [slope_of_X_ne fun h => hx h.symm, ← neg_sub y2, ← neg_sub x2, neg_div_neg_eq]
  · have hz3 : ((P.Z + Q.Z) * (P.Z + Q.Z) - P.Z * P.Z - Q.Z * Q.Z) *
        ((x2 - x1) * (P.Z * Q.Z) ^ 2) = 2 * (x2 - x1) * (P.Z * Q.Z) ^ 3 := by
      ring
    simp only [hz3]
    exact mul_ne_zero (mul_ne_zero h2 hsub) (pow_ne_zero 3 hZZ)
  · simp only [smallMul_eq, hX1]
    push_cast
    field_simp
    ring
  simp only [smallMul_eq, hX1, hY1]
  push_cast
  field_simp
  ring

/-! ## Section 3: Double and add -/

theorem testBit_scalar (k : Nat → BitVec 64) {i : Nat} (hi : i < 256) :
    (scalar k).testBit i = scalarBit k i := by
  have hq : i / 64 < 4 := by omega
  rw [scalar, BitVec.testBit_toNat, scalarBit]
  simp only [BitVec.getLsbD_append]
  interval_cases hw : i / 64
  all_goals simp only [show i % 64 = i - 64 * (i / 64) by omega, hw]
  · rw [if_pos (by omega)]
    rfl
  · rw [if_neg (by omega), if_pos (by omega)]
  · rw [if_neg (by omega), if_neg (by omega), if_pos (by omega), Nat.sub_sub]
  · rw [if_neg (by omega), if_neg (by omega), if_neg (by omega), Nat.sub_sub, Nat.sub_sub]

theorem scalar_shift (k : Nat → BitVec 64) {i : Nat} (hi : i < 256) :
    scalar k / 2 ^ i = 2 * (scalar k / 2 ^ (i + 1)) + (scalarBit k i).toNat := by
  rw [← testBit_scalar k hi, Nat.testBit_eq_decide_div_mod_eq, pow_succ, ← Nat.div_div_eq_div_mul]
  rcases Nat.mod_two_eq_zero_or_one (scalar k / 2 ^ i) with h | h
  · rw [h]
    simp
    omega
  · rw [h]
    simp
    omega

/-- What holds when the bits from `i` up have been seen; before the first set bit there is
    nothing to double. -/
def Seen (k : Nat → BitVec 64) (p : (curve b).Point) (i : Nat) (s : Jpoint F × Bool) : Prop :=
  s.1.Represents ((scalar k / 2 ^ i) • p) ∧ (s.2 = false → scalar k / 2 ^ i = 0)

theorem scalarmultRound_seen (h2 : (2 : F) ≠ 0) (hP : P.Represents p) {k : Nat → BitVec 64}
    {i : Nat} (hi : i < 256) {s : Jpoint F × Bool} (hs : Seen k p (i + 1) s) :
    Seen k p i (scalarmultRound k P i s) := by
  obtain ⟨acc, started⟩ := s
  obtain ⟨hacc, hstart⟩ := hs
  have hshift := scalar_shift k hi
  rw [Seen, scalarmultRound]
  cases started with
  | false =>
    rw [hstart rfl] at hshift hacc
    cases hbit : scalarBit k i with
    | false => simpa [hbit, hshift] using hacc
    | true => simpa [hbit, hshift] using hP
  | true =>
    have hdouble := pDouble_represents h2 hacc
    rw [← add_nsmul, ← two_mul] at hdouble
    cases hbit : scalarBit k i with
    | false => simpa [hbit, hshift] using hdouble
    | true =>
      have hadd := pAdd_represents h2 hdouble hP
      rw [← succ_nsmul] at hadd
      simpa [hbit, hshift] using hadd

theorem scalarmultLoop_seen (h2 : (2 : F) ≠ 0) (hP : P.Represents p) {k : Nat → BitVec 64}
    {i : Nat} (hi : i ≤ 256) {s : Jpoint F × Bool} (hs : Seen k p i s) :
    Seen k p 0 (scalarmultLoop k P i s) := by
  induction i generalizing s with
  | zero => exact hs
  | succ i ih => exact ih (by omega) (scalarmultRound_seen h2 hP (by omega) hs)

/-- `p_double`, `p_add` and `scalarmult` are the group's operations, for all points and
    all representations of them. -/
theorem group_operations (h2 : (2 : F) ≠ 0) (hP : P.Represents p) (hQ : Q.Represents q) :
    (pDouble P).Represents (p + p) ∧ (pAdd P Q).Represents (p + q) ∧
      ∀ k, (scalarmult k P).Represents (scalar k • p) := by
  refine ⟨pDouble_represents h2 hP, pAdd_represents h2 hP hQ, fun k => ?_⟩
  have hall : scalar k / 2 ^ 256 = 0 := Nat.div_eq_of_lt (BitVec.isLt _)
  have hloop := (scalarmultLoop_seen h2 hP (s := (.cleared, false))
    le_rfl ⟨by rw [hall, zero_nsmul]; rfl, fun _ => hall⟩).1
  rwa [pow_zero, Nat.div_one] at hloop

/-- `(1, 1)` is a point of `y² = x³ - 3x + 3` over the rationals. -/
theorem one_one_nonsingular : (curve (3 : ℚ)).Nonsingular 1 1 := by
  rw [nonsingular_iff, equation_iff]
  norm_num [curve]

/-- `(1, 1, 1)` and `(4, 8, 2)` stand for the same point, so their sum is its double. -/
theorem group_operations_tangent : (pAdd (⟨1, 1, 1⟩ : Jpoint ℚ) ⟨4, 8, 2⟩).Represents
    (Point.some 1 1 one_one_nonsingular + Point.some 1 1 one_one_nonsingular) := by
  refine (group_operations two_ne_zero ?_ ?_).2.1
  · exact ⟨by norm_num, by norm_num, by norm_num⟩
  · exact ⟨by norm_num, by norm_num, by norm_num⟩

end Cervus.P256
