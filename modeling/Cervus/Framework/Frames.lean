import Mathlib.Data.Multiset.Range
import Mathlib.Data.Nat.Bitwise
import Mathlib.Tactic.Ring

/-! # Runs of frames and buddy arithmetic

    A block of memory is a run of consecutive frames. Counting frames with
    multiplicity turns "no frame is lost, duplicated or handed out twice" into
    one equation between multisets: splitting a block into its halves and
    merging two halves both leave the multiset of frames alone.

    * `span a n` is the multiset of the `n` frames from `a` on;
    * `span_two_pow_succ` is the split (read from right to left: the merge);
    * `buddy_cases` says where the buddy `x ^^^ 2 ^ k` of an aligned address
      lies, and that the lower of the two is aligned one order up.
-/

namespace Cervus.Frames

/-! ## Section 1: Runs of frames -/

/-- The `n` consecutive frames that start at `a`. -/
def span (a n : Nat) : Multiset Nat := ↑(List.range' a n)

@[simp] theorem mem_span {a n f : Nat} : f ∈ span a n ↔ a ≤ f ∧ f < a + n := by
  simp [span, List.mem_range'_1]

theorem nodup_span (a n : Nat) : (span a n).Nodup := by
  simp [span, List.nodup_range']

@[simp] theorem card_span (a n : Nat) : (span a n).card = n := by
  simp [span]

/-- A run splits anywhere. -/
theorem span_add (a m n : Nat) : span a (m + n) = span a m + span (a + m) n := by
  unfold span
  rw [Multiset.coe_add, List.range'_append_1]

/-- A run of `2 ^ (k + 1)` frames is its two halves. -/
theorem span_two_pow_succ (a k : Nat) :
    span a (2 ^ (k + 1)) = span a (2 ^ k) + span (a + 2 ^ k) (2 ^ k) := by
  have h : 2 ^ (k + 1) = 2 ^ k + 2 ^ k := by ring
  rw [h, span_add]

/-! ## Section 2: Buddies -/

/-- Flipping bit `k` is flipping the lowest bit of the quotient by `2 ^ k`. -/
theorem xor_two_pow_of_dvd {q k : Nat} : (2 ^ k * q) ^^^ 2 ^ k = 2 ^ k * (q ^^^ 1) := by
  have h1 : 2 ^ k * q = q <<< k := by rw [Nat.shiftLeft_eq, Nat.mul_comm]
  have h2 : 2 ^ k = 1 <<< k := by rw [Nat.shiftLeft_eq, Nat.one_mul]
  have h3 : 2 ^ k * (q ^^^ 1) = (q ^^^ 1) <<< k := by rw [Nat.shiftLeft_eq, Nat.mul_comm]
  rw [h3, h1]
  conv_lhs => rw [h2]
  rw [Nat.shiftLeft_xor_distrib]

/-- The buddy of an aligned address: one block up when the address is aligned
    one order higher, else one block down, and then the buddy is. -/
theorem buddy_cases {x k : Nat} (h : 2 ^ k ∣ x) : (2 ^ (k + 1) ∣ x ∧ x ^^^ 2 ^ k = x + 2 ^ k) ∨
    (2 ^ (k + 1) ∣ x - 2 ^ k ∧ 2 ^ k ≤ x ∧ x ^^^ 2 ^ k = x - 2 ^ k) := by
  obtain ⟨q, rfl⟩ := h
  rw [xor_two_pow_of_dvd]
  rcases Nat.even_or_odd q with he | ho
  · left
    rw [Nat.xor_one_of_even he]
    obtain ⟨r, rfl⟩ := he
    exact ⟨⟨r, by ring⟩, by ring⟩
  right
  rw [Nat.xor_one_of_odd ho]
  obtain ⟨r, rfl⟩ := ho
  have hsub : 2 ^ k * (2 * r + 1) - 2 ^ k = 2 ^ k * (2 * r) := by
    rw [Nat.mul_add, Nat.mul_one, Nat.add_sub_cancel]
  refine ⟨⟨r, by rw [hsub]; ring⟩, Nat.le_mul_of_pos_right _ (by omega), ?_⟩
  rw [hsub, Nat.add_sub_cancel]

end Cervus.Frames
