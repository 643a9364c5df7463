import Mathlib.Algebra.GroupWithZero.Nat
import Mathlib.Algebra.Order.BigOperators.Group.List
import Mathlib.Algebra.Order.Group.Nat

/-! # Tallies over lists

    `tally g l` adds up a number for each element of a list. What an array holds of
    something is a tally over its cells, and what a list of arrays holds is a tally of
    tallies, so that the same few rules say how writing a cell, adding an array or clearing
    a part of one changes the total. -/

universe u v

namespace Cervus

variable {α : Type u} {β : Type v} {g : α → Nat} {l : List α}

/-- The sum of `g` over a list. -/
def tally (g : α → Nat) (l : List α) : Nat := (l.map g).sum

@[simp] theorem tally_nil (g : α → Nat) : tally g [] = 0 := rfl

@[simp] theorem tally_cons (g : α → Nat) (a : α) (l : List α) :
    tally g (a :: l) = g a + tally g l := by
  simp [tally]

@[simp] theorem tally_append (g : α → Nat) (l l' : List α) :
    tally g (l ++ l') = tally g l + tally g l' := by
  simp [tally]

@[simp] theorem tally_map (g : β → Nat) (f : α → β) (l : List α) :
    tally g (l.map f) = tally (fun a => g (f a)) l := by
  simp [tally, Function.comp_def]

theorem tally_filter (g : α → Nat) (p : α → Bool) (l : List α) :
    tally g (l.filter p) = tally (fun a => if p a then g a else 0) l := by
  induction l with
  | nil => rfl
  | cons a l ih =>
    cases h : p a with
    | true => simp [List.filter_cons_of_pos h, h, ih]
    | false => simp [List.filter_cons_of_neg, h, ih]

/-- Writing a cell takes the old number away and adds the new one. -/
theorem tally_set {i : Nat} {old : α} (h : l[i]? = some old) (new : α) :
    tally g (l.set i new) + g old = tally g l + g new := by
  induction l generalizing i with
  | nil => simp at h
  | cons a l ih =>
    cases i with
    | zero =>
      simp only [List.getElem?_cons_zero, Option.some.injEq] at h
      simp only [List.set_cons_zero, tally_cons, h]
      omega
    | succ i =>
      have := ih h
      simp only [List.set_cons_succ, tally_cons]
      omega

/-- Two tallies that add up to a third one do so over every list. -/
theorem tally_add {g' k : α → Nat} (h : ∀ a ∈ l, g a + g' a = k a) :
    tally g l + tally g' l = tally k l := by
  induction l with
  | nil => rfl
  | cons a l ih =>
    have hhead := h a (by simp)
    have htail := ih fun b hb => h b (by simp [hb])
    simp only [tally_cons]
    omega

end Cervus
