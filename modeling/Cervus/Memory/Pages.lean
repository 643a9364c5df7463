import Cervus.Memory.Vmm

/-! # Addresses of pages

    Loops over pages in 64-bit arithmetic. -/

namespace Cervus.Vmm

open Cervus.Pmm BitVec

/-- The addresses `p`, `p + 0x1000`, … below `stop`; both begin pages. -/
def pagesUpTo (p stop : BitVec 64) : List (BitVec 64) :=
  if p < stop then
    (List.range ((stop - p) >>> 12).toNat).map fun i => p + BitVec.ofNat 64 i * 0x1000#64
  else []

theorem toNat_and_page (a : BitVec 64) :
    (a &&& ~~~0xFFF#64).toNat = a.toNat / pageSize * pageSize := by
  have hsplit : a = (a &&& ~~~0xFFF#64) + (a &&& 0xFFF#64) := by
    have hdisj : (a &&& ~~~0xFFF#64) &&& (a &&& 0xFFF#64) = 0#64 := by
      rw [BitVec.and_assoc, BitVec.and_comm a (0xFFF#64), ← BitVec.and_assoc (~~~0xFFF#64),
        show ~~~0xFFF#64 &&& 0xFFF#64 = 0#64 by decide, zero_and, and_zero]
    rw [add_eq_or_of_and_eq_zero _ _ hdisj, ← and_or_distrib_left,
      show ~~~0xFFF#64 ||| 0xFFF#64 = allOnes 64 by decide, and_allOnes]
  have hlow : (a &&& 0xFFF#64).toNat = a.toNat % 2 ^ 12 := by
    exact Nat.and_two_pow_sub_one_eq_mod _ 12
  have hsum := congrArg BitVec.toNat hsplit
  rw [toNat_add, hlow] at hsum
  unfold pageSize
  omega

/-- The `i`-th page from an address, when it does not wrap around. -/
theorem toNat_add_page {p : BitVec 64} {i : Nat} (h : p.toNat + i * pageSize < 2 ^ 64) :
    (p + BitVec.ofNat 64 i * 0x1000#64).toNat = p.toNat + i * pageSize := by
  unfold pageSize at *
  rw [toNat_add, toNat_mul, toNat_ofNat,
    show (0x1000#64 : BitVec 64).toNat = 4096 from rfl, Nat.mod_eq_of_lt (show i < 2 ^ 64 by omega),
    Nat.mod_eq_of_lt (show i * 4096 < 2 ^ 64 by omega)]
  exact Nat.mod_eq_of_lt h

theorem shift_page (a : BitVec 64) : (a >>> 12).toNat = a.toNat / pageSize := by
  rw [toNat_ushiftRight, Nat.shiftRight_eq_div_pow]
  rfl

theorem mem_pagesUpTo {p stop q : BitVec 64} (hp : p.toNat % pageSize = 0)
    (hs : stop.toNat % pageSize = 0) :
    q ∈ pagesUpTo p stop ↔ q.toNat % pageSize = 0 ∧ p.toNat ≤ q.toNat ∧ q.toNat < stop.toNat := by
  unfold pagesUpTo
  by_cases hlt : p < stop
  · have hsub : (stop - p).toNat = stop.toNat - p.toNat := toNat_sub_of_le (Nat.le_of_lt hlt)
    rw [if_pos hlt, List.mem_map]
    simp only [List.mem_range, shift_page, hsub]
    unfold pageSize at *
    constructor
    · rintro ⟨i, hi, rfl⟩
      rw [toNat_add_page (by unfold pageSize; omega)]
      unfold pageSize
      omega
    rintro ⟨hq, hlo, hhi⟩
    refine ⟨(q.toNat - p.toNat) / 4096, by omega, ?_⟩
    apply eq_of_toNat_eq
    rw [toNat_add_page (by unfold pageSize; omega)]
    unfold pageSize
    omega
  have hlt' : ¬ p.toNat < stop.toNat := hlt
  rw [if_neg hlt]
  simp only [List.not_mem_nil, false_iff]
  omega

end Cervus.Vmm
