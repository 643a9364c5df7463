import Mathlib.Data.List.Basic
import Mathlib.Tactic.Ring

/-! # Ring buffers

    A circular buffer of `cap` cells with a read index, a write index and a
    count. The abstract view is a queue: `contents` lists the stored elements
    in order, `push` appends as much as fits, `pop` removes from the front. -/

universe u

namespace Cervus

open List Nat

/-- A ring of `cap` cells; cells outside the stored part hold stale values. -/
structure Ring (α : Type u) (cap : Nat) where
  buf : Nat → α
  head : Nat
  tail : Nat
  count : Nat

namespace Ring

variable {α : Type u} {cap i k : Nat} {r : Ring α cap}

/-! ## Section 1: Operations -/

/-- Store the elements one after another at the write index. -/
def write (r : Ring α cap) : List α → Ring α cap
  | [] => r
  | x :: xs =>
    write { r with
      buf := fun i => if i = r.tail then x else r.buf i
      tail := (r.tail + 1) % cap } xs

/-- Append as much of the data as there is room for. -/
def push (r : Ring α cap) (data : List α) : Ring α cap :=
  let taken := data.take (cap - r.count)
  { r.write taken with count := r.count + taken.length }

/-- Drop the oldest element. -/
def advance (r : Ring α cap) : Ring α cap :=
  { r with head := (r.head + 1) % cap, count := r.count - 1 }

/-- Remove up to `n` elements from the front. -/
def pop (r : Ring α cap) : Nat → List α × Ring α cap
  | 0 => ([], r)
  | n + 1 =>
    if 0 < r.count then
      let rest := pop r.advance n
      (r.buf r.head :: rest.1, rest.2)
    else ([], r)

/-- The stored elements, oldest first. -/
def contents (r : Ring α cap) : List α :=
  (List.range r.count).map fun i => r.buf ((r.head + i) % cap)

/-- The write index is `count` cells after the read index. -/
structure Ok (r : Ring α cap) : Prop where
  head_lt : r.head < cap
  count_le : r.count ≤ cap
  tail_eq : r.tail = (r.head + r.count) % cap

/-! ## Section 2: The ring is a queue -/

@[simp] theorem length_contents (r : Ring α cap) : r.contents.length = r.count := by
  simp [contents]

section

variable (r : Ring α cap) (xs : List α)

@[simp] theorem write_head : (r.write xs).head = r.head := by
  induction xs generalizing r with
  | nil => rfl
  | cons x xs ih => simp [write, ih]

@[simp] theorem push_head : (r.push xs).head = r.head := by
  simp [push]

theorem push_count :
    (r.push xs).count = r.count + (xs.take (cap - r.count)).length := rfl

end

theorem write_tail (ht : r.tail < cap) (xs : List α) :
    (r.write xs).tail = (r.tail + xs.length) % cap := by
  induction xs generalizing r with
  | nil => simp [write, mod_eq_of_lt ht]
  | cons x xs ih =>
    simp only [write, length_cons]
    rw [ih (mod_lt _ (by omega))]
    simp only [mod_add_mod]
    congr 1
    omega

/-- Cells that the write index does not pass keep their value. -/
theorem write_buf_of_ne (ht : r.tail < cap) (xs : List α)
    (h : ∀ k < xs.length, i ≠ (r.tail + k) % cap) : (r.write xs).buf i = r.buf i := by
  induction xs generalizing r with
  | nil => rfl
  | cons x xs ih =>
    simp only [write]
    rw [ih (mod_lt _ (by omega))]
    · have h0 := h 0 (by simp)
      rw [Nat.add_zero, mod_eq_of_lt ht] at h0
      simp [h0]
    intro k hk
    have hk' := h (k + 1) (by simpa using hk)
    simp only [mod_add_mod]
    rwa [show r.tail + 1 + k = r.tail + (k + 1) by omega]

/-- Two different offsets below the capacity are different cells. -/
theorem cell_ne {a : Nat} (hi : i < k) (hk : k < cap) : (a + i) % cap ≠ (a + k) % cap := by
  intro h
  have hdvd : cap ∣ (a + k) - (a + i) :=
    dvd_of_mod_eq_zero (sub_mod_eq_zero_of_mod_eq h.symm)
  have := le_of_dvd (by omega) hdvd
  omega

theorem write_buf_get (ht : r.tail < cap) (xs : List α) (hlen : xs.length ≤ cap)
    (hk : k < xs.length) : (r.write xs).buf ((r.tail + k) % cap) = xs[k] := by
  induction xs generalizing r k with
  | nil => simp at hk
  | cons x xs ih =>
    simp only [length_cons] at hlen hk
    cases k with
    | zero =>
      simp only [write, Nat.add_zero, mod_eq_of_lt ht, getElem_cons_zero]
      rw [write_buf_of_ne (mod_lt _ (by omega))]
      · simp
      intro k hk'
      have h := cell_ne (a := r.tail) (i := 0) (by omega) (by omega : k + 1 < cap)
      rw [Nat.add_zero, mod_eq_of_lt ht] at h
      simp only [mod_add_mod]
      rwa [show r.tail + 1 + k = r.tail + (k + 1) by omega]
    | succ k =>
      simp only [write, getElem_cons_succ]
      rw [← ih (r := { r with
          buf := fun i => if i = r.tail then x else r.buf i
          tail := (r.tail + 1) % cap }) (mod_lt _ (by omega)) (by omega) (by omega)]
      simp only [mod_add_mod]
      rw [show r.tail + 1 + k = r.tail + (k + 1) by omega]

theorem Ok.push (h : r.Ok) (xs : List α) : (r.push xs).Ok := by
  have hpos : 0 < cap := by have := h.head_lt; omega
  have htail : r.tail < cap := by rw [h.tail_eq]; exact mod_lt _ hpos
  have hlen : (xs.take (cap - r.count)).length ≤ cap - r.count := length_take_le _ _
  have hcount := h.count_le
  refine ⟨by simpa using h.head_lt, by rw [push_count]; omega, ?_⟩
  show (r.write _).tail = _
  rw [write_tail htail, push_head, push_count, h.tail_eq, mod_add_mod, Nat.add_assoc]

/-- **Push appends.** What fits is added at the end of the queue. -/
theorem contents_push (h : r.Ok) (xs : List α) :
    (r.push xs).contents = r.contents ++ xs.take (cap - r.count) := by
  have hpos : 0 < cap := by have := h.head_lt; omega
  have htail : r.tail < cap := by rw [h.tail_eq]; exact mod_lt _ hpos
  set ys := xs.take (cap - r.count) with hys
  have hlen : ys.length ≤ cap - r.count := length_take_le _ _
  have hbuf : (r.push xs).buf = (r.write ys).buf := rfl
  apply ext_getElem
  · simp [push_count, ← hys]
  intro i hi hi'
  have hcnt : i < r.count + ys.length := by simpa [push_count, ← hys] using hi
  simp only [contents, getElem_map, getElem_range, push_head, hbuf]
  by_cases hold : i < r.count
  · -- an old cell: the write index starts `r.count` cells further and does not come round
    rw [getElem_append_left (by simpa using hold)]
    simp only [getElem_map, getElem_range]
    apply write_buf_of_ne htail
    intro k hk
    rw [h.tail_eq, mod_add_mod, Nat.add_assoc]
    exact cell_ne (by omega) (by omega)
  rw [getElem_append_right (by simpa using hold)]
  simp only [length_map, length_range]
  rw [← write_buf_get htail ys (by omega) (by omega : i - r.count < ys.length)]
  congr 1
  rw [h.tail_eq, mod_add_mod, Nat.add_assoc]
  congr 2
  omega

theorem contents_eq_cons (hc : 0 < r.count) :
    r.contents = r.buf (r.head % cap) :: r.advance.contents := by
  obtain ⟨m, hm⟩ : ∃ m, r.count = m + 1 := ⟨r.count - 1, by omega⟩
  simp only [contents, advance, hm, range_succ_eq_map, map_cons, map_map,
    Nat.add_zero, Nat.add_sub_cancel]
  congr 1
  apply map_congr_left
  intro i _
  simp only [Function.comp, mod_add_mod]
  congr 2
  omega

theorem Ok.advance (h : r.Ok) (hc : 0 < r.count) : r.advance.Ok := by
  have hpos : 0 < cap := by have := h.head_lt; omega
  have hcount := h.count_le
  refine ⟨mod_lt _ hpos, by simp only [Ring.advance]; omega, ?_⟩
  simp only [Ring.advance, mod_add_mod]
  rw [h.tail_eq]
  congr 1
  omega

/-- **Pop removes from the front.** -/
theorem pop_spec (h : r.Ok) (n : Nat) :
    r.contents = (r.pop n).1 ++ (r.pop n).2.contents ∧ (r.pop n).2.Ok ∧
      (r.pop n).1.length = min n r.count := by
  induction n generalizing r with
  | zero => simp [pop, h]
  | succ n ih =>
    by_cases hc : 0 < r.count
    · obtain ⟨hcat, hok, hlen⟩ := ih (h.advance hc)
      have hcount : r.advance.count = r.count - 1 := rfl
      simp only [pop, hc, if_true, cons_append, length_cons, hlen]
      refine ⟨?_, hok, by omega⟩
      rw [contents_eq_cons hc, mod_eq_of_lt h.head_lt, ← hcat]
    · simp only [pop, hc, if_false, nil_append, length_nil]
      exact ⟨trivial, h, by omega⟩

end Ring

end Cervus
