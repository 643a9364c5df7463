import Mathlib.Tactic.Linarith

/-! # Dyadic blocks

    A dyadic block of order `o` is an interval `[i * 2 ^ o, (i + 1) * 2 ^ o)` of natural
    numbers. Two of them are nested or disjoint; two of the same order that make up a
    block of the next order are buddies.

    A `Tiling` is a set of disjoint blocks, none larger than a given order, without two
    buddies that could be joined. The result of this module is `Tiling.unique`: a tiling
    is determined by the numbers that it covers. -/

namespace Cervus.Dyadic

/-- The block `[index * 2 ^ order, (index + 1) * 2 ^ order)`. -/
structure Block where
  index : Nat
  order : Nat
  deriving DecidableEq, Repr

/-- A number in a block. -/
def Block.Has (b : Block) (n : Nat) : Prop := n / 2 ^ b.order = b.index

/-- The two halves of one block. -/
def Block.Buddies (b c : Block) : Prop :=
  b.order = c.order ∧ b.index / 2 = c.index / 2 ∧ b.index ≠ c.index

theorem Block.first_has (b : Block) : b.Has (b.index * 2 ^ b.order) :=
  Nat.mul_div_cancel _ (Nat.two_pow_pos _)

variable {b c : Block} {n top : Nat}

theorem Block.Buddies.symm (h : b.Buddies c) : c.Buddies b :=
  ⟨h.1.symm, h.2.1.symm, h.2.2.symm⟩

/-- Blocks of one order that share a number are equal. -/
theorem Block.eq_of_has (hb : b.Has n) (hc : c.Has n)
    (ho : b.order = c.order) : b = c := by
  unfold Block.Has at hb hc
  cases b
  cases c
  simp_all

/-- A number of a block, seen from a higher order. -/
theorem Block.Has.div (h : b.Has n) {o : Nat} (ho : b.order ≤ o) :
    n / 2 ^ o = b.index / 2 ^ (o - b.order) := by
  have hpow : 2 ^ o = 2 ^ b.order * 2 ^ (o - b.order) := by
    rw [← Nat.pow_add, Nat.add_sub_of_le ho]
  rw [hpow, ← Nat.div_div_eq_div_mul, h]

/-- A larger block that meets a block also contains its buddy. -/
theorem Block.Buddies.has_of_lt {b' : Block} (h : b.Buddies b') (hb : b.Has n)
    (hc : c.Has n) (ho : b.order < c.order) {m : Nat} (hm : b'.Has m) : c.Has m := by
  obtain ⟨horder, hhalf, _⟩ := h
  have hsplit : ∀ i, i / 2 ^ (c.order - b.order) = i / 2 / 2 ^ (c.order - b.order - 1) := by
    intro i
    rw [Nat.div_div_eq_div_mul, ← Nat.pow_succ']
    congr 2
    omega
  unfold Block.Has at hc ⊢
  rw [hm.div (by omega), ← horder, hsplit, ← hhalf, ← hsplit, ← hb.div (Nat.le_of_lt ho), hc]

/-! ## Tilings -/

/-- Disjoint blocks of at most the order `top`, no two of them buddies below `top`. -/
structure Tiling (top : Nat) (A : Set Block) : Prop where
  order_le : ∀ b ∈ A, b.order ≤ top
  disjoint : ∀ b ∈ A, ∀ c ∈ A, ∀ n, b.Has n → c.Has n → b = c
  joined   : ∀ b ∈ A, ∀ c ∈ A, b.order < top → ¬ b.Buddies c

/-- The numbers that a set of blocks covers. -/
def Covers (A : Set Block) (n : Nat) : Prop := ∃ b ∈ A, b.Has n

/-- In a tiling, a block that is covered is not covered by smaller blocks: two smallest
    ones among these would be buddies. -/
theorem Tiling.not_smaller {A : Set Block} (h : Tiling top A)
    (hb : b.order ≤ top) (hcov : ∀ n, b.Has n → Covers A n) (hc : c ∈ A)
    (hbn : b.Has n) (hcn : c.Has n) : b.order ≤ c.order := by
  by_contra hlt
  -- a block of least order among those of the tiling inside `b`
  obtain ⟨d, ⟨hd, m, hbm, hdm, hdlt⟩, hmin⟩ := WellFounded.has_min (measure Block.order).wf
    {d : Block | d ∈ A ∧ ∃ m, b.Has m ∧ d.Has m ∧ d.order < b.order}
    ⟨c, hc, n, hbn, hcn, by omega⟩
  -- its buddy is inside `b` as well, so its first number is covered
  let d' : Block := ⟨if d.index % 2 = 0 then d.index + 1 else d.index - 1, d.order⟩
  have hbud : d.Buddies d' := by
    refine ⟨rfl, ?_, ?_⟩ <;> simp only [d'] <;> split <;> omega
  have hbd' : b.Has (d'.index * 2 ^ d'.order) := hbud.has_of_lt hdm hbm hdlt d'.first_has
  obtain ⟨e, he, hee⟩ := hcov _ hbd'
  rcases Nat.lt_trichotomy e.order d.order with hlt' | heq | hgt
  · -- a smaller block contradicts the choice of `d`
    exact hmin e ⟨he, _, hbd', hee, by omega⟩ hlt'
  · -- the buddy itself is in the tiling
    have : e = d' := Block.eq_of_has hee d'.first_has heq
    exact h.joined d hd e he (by omega) (by rw [this]; exact hbud)
  -- a larger block would contain `d`
  have hed := hbud.symm.has_of_lt d'.first_has hee hgt d.first_has
  have := h.disjoint d hd e he _ d.first_has hed
  rw [this] at hgt
  omega

/-- **A tiling is determined by what it covers.** -/
theorem Tiling.unique {A B : Set Block} (hA : Tiling top A) (hB : Tiling top B)
    (hcov : ∀ n, Covers A n ↔ Covers B n) : A = B := by
  have hsub : ∀ {A B : Set Block}, Tiling top A → Tiling top B →
      (∀ n, Covers A n ↔ Covers B n) → ∀ b ∈ A, b ∈ B := by
    intro A B hA hB hcov b hb
    obtain ⟨c, hc, hcn⟩ := (hcov _).mp ⟨b, hb, b.first_has⟩
    have hbc := hB.not_smaller (hA.order_le b hb) (fun n hn => (hcov n).mp ⟨b, hb, hn⟩) hc
      b.first_has hcn
    have hcb := hA.not_smaller (hB.order_le c hc) (fun n hn => (hcov n).mpr ⟨c, hc, hn⟩) hb
      hcn b.first_has
    rw [Block.eq_of_has b.first_has hcn (by omega)]
    exact hc
  apply Set.ext
  intro b
  exact ⟨hsub hA hB hcov b, hsub hB hA (fun n => (hcov n).symm) b⟩

end Cervus.Dyadic
