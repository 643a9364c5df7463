import Mathlib.Data.List.Flatten
import Cervus.Framework.ByteFile

/-! # Runs of consecutive numbers, and extents

    A list of block numbers is kept as maximal runs of consecutive ones (`runs`), and a file in
    such blocks as extents: the length of each run in bytes and its first block. The last extent
    ends with the file, the others with a block. -/

namespace Cervus

open List

/-! ## Section 1: Runs -/

/-- The maximal runs of consecutive numbers: where each begins and how long it is. -/
def runs : List Nat → List (Nat × Nat)
  | [] => []
  | b :: rest =>
    match runs rest with
    | [] => [(b, 1)]
    | (s, n) :: more => if s = b + 1 then (b, n + 1) :: more else (b, 1) :: (s, n) :: more

/-- The numbers of a run. -/
def run (r : Nat × Nat) : List Nat := (List.range r.2).map (r.1 + ·)

section

variable {l : List Nat}

theorem run_succ (b n : Nat) : run (b, n + 1) = b :: run (b + 1, n) := by
  simp only [run, range_succ_eq_map, map_cons, map_map, Nat.add_zero,
    Function.comp_def, Nat.succ_eq_add_one]
  congr 1
  apply map_congr_left
  intro i _
  omega

/-- Writing out the runs of a list gives the list. -/
theorem flatMap_runs (l : List Nat) : (runs l).flatMap run = l := by
  induction l with
  | nil => rfl
  | cons b rest ih =>
    rw [runs]
    split
    · next hnil =>
      rw [hnil] at ih
      rw [← ih]
      rfl
    next s n more hcons =>
    rw [hcons, flatMap_cons] at ih
    split
    · next hs => rw [flatMap_cons, run_succ, ← hs, cons_append, ih]
    · rw [flatMap_cons, flatMap_cons, ih]
      rfl

theorem runs_pos (l : List Nat) : ∀ r ∈ runs l, 0 < r.2 := by
  induction l with
  | nil => exact nofun
  | cons b rest ih =>
    intro r hr
    rw [runs] at hr
    split at hr
    · rw [mem_singleton.mp hr]
      exact Nat.one_pos
    next s n more hcons =>
    rw [hcons] at ih
    split at hr
    · rcases mem_cons.mp hr with rfl | hmem
      · exact Nat.succ_pos n
      · exact ih r (.tail _ hmem)
    · rcases mem_cons.mp hr with rfl | hmem
      · exact Nat.one_pos
      · exact ih r hmem

end

/-! ## Section 2: Extents -/

/-- The number of blocks that hold `size` bytes. -/
def blockCount (bs size : Nat) : Nat := (size + bs - 1) / bs

/-- The extents of a file of `size` bytes in these runs, of which `i` blocks come before: the
    length in bytes, and the first block. -/
def extents (bs size : Nat) : Nat → List (Nat × Nat) → List (Nat × Nat)
  | _, [] => []
  | i, (s, n) :: rest =>
    (if rest = [] then size - i * bs else n * bs, s) :: extents bs size (i + n) rest

/-- The blocks of an extent. -/
def extentBlocks (bs : Nat) (e : Nat × Nat) : List Nat := run (e.2, blockCount bs e.1)

section

variable {bs size : Nat}

theorem blockCount_le_iff (hbs : 0 < bs) {n : Nat} : blockCount bs size ≤ n ↔ size ≤ n * bs := by
  rw [blockCount, ← Nat.lt_succ_iff, Nat.div_lt_iff_lt_mul hbs, Nat.succ_mul]
  omega

theorem lt_blockCount_iff (hbs : 0 < bs) {n : Nat} : n < blockCount bs size ↔ n * bs < size := by
  have h := @blockCount_le_iff bs size hbs n
  omega

theorem blockCount_mul (hbs : 0 < bs) (n : Nat) : blockCount bs (n * bs) = n := by
  rw [blockCount, Nat.mul_comm, Nat.add_sub_assoc hbs, Nat.mul_add_div hbs,
    Nat.div_eq_of_lt (by omega), Nat.add_zero]

theorem blockCount_add_mul (hbs : 0 < bs) (n : Nat) :
    blockCount bs (n * bs + size) = n + blockCount bs size := by
  rw [blockCount, blockCount, Nat.add_assoc, Nat.mul_comm, Nat.add_sub_assoc (by omega),
    Nat.mul_add_div hbs]

@[simp] theorem length_extents (i : Nat) (rs : List (Nat × Nat)) :
    (extents bs size i rs).length = rs.length := by
  induction rs generalizing i with
  | nil => rfl
  | cons r rest ih => rw [extents, length_cons, length_cons, ih]

/-- The number of blocks in runs. -/
def total (rs : List (Nat × Nat)) : Nat := (rs.map Prod.snd).sum

@[simp] theorem total_nil : total [] = 0 := rfl

@[simp] theorem total_cons (r : Nat × Nat) (rs : List (Nat × Nat)) :
    total (r :: rs) = r.2 + total rs := rfl

theorem length_flatMap_run (rs : List (Nat × Nat)) : (rs.flatMap run).length = total rs := by
  induction rs with
  | nil => rfl
  | cons r rest ih =>
    rw [flatMap_cons, length_append, ih, total_cons, run, length_map,
      length_range]

theorem total_runs (l : List Nat) : total (runs l) = l.length := by
  rw [← length_flatMap_run, flatMap_runs]

theorem total_pos {rs : List (Nat × Nat)} (hne : rs ≠ []) (hpos : ∀ r ∈ rs, 0 < r.2) :
    0 < total rs := by
  cases rs with
  | nil => exact absurd rfl hne
  | cons r rest =>
    have hr := hpos r (.head _)
    rw [total_cons]
    omega

/-- The extents are in the blocks of the runs, if those are as many as the file needs. -/
theorem flatMap_extentBlocks (hbs : 0 < bs) (rs : List (Nat × Nat)) :
    ∀ {i : Nat}, (∀ r ∈ rs, 0 < r.2) → i * bs ≤ size → i + total rs = blockCount bs size →
      (extents bs size i rs).flatMap (extentBlocks bs) = rs.flatMap run := by
  induction rs with
  | nil =>
    intro i _ _ _
    rfl
  | cons r rest ih =>
    obtain ⟨s, n⟩ := r
    intro i hpos hle htotal
    rw [total_cons] at htotal
    rw [extents, flatMap_cons, flatMap_cons, extentBlocks]
    have hrest : ∀ r ∈ rest, 0 < r.2 := fun r hr => hpos r (.tail _ hr)
    by_cases hnil : rest = []
    · -- the last run has the blocks that the rest of the file needs
      subst hnil
      have hcount : blockCount bs (size - i * bs) = n := by
        have hsplit := @blockCount_add_mul bs (size - i * bs) hbs i
        rw [Nat.add_sub_cancel' hle] at hsplit
        simp only [total_nil] at htotal
        omega
      rw [if_pos rfl, hcount]
      rfl
    have hmore := total_pos hnil hrest
    have hle' : (i + n) * bs ≤ size := by
      have hlt : i + n < blockCount bs size := by
        omega
      exact Nat.le_of_lt ((lt_blockCount_iff hbs).mp hlt)
    rw [if_neg hnil, blockCount_mul hbs, ih hrest hle' (by simp only at htotal; omega)]

/-- No extent is empty or longer than the file. -/
theorem extents_len (hbs : 0 < bs) (size : Nat) (rs : List (Nat × Nat)) :
    ∀ {i : Nat}, (∀ r ∈ rs, 0 < r.2) → i + total rs = blockCount bs size →
      ∀ e ∈ extents bs size i rs, 0 < e.1 ∧ e.1 ≤ size := by
  induction rs with
  | nil =>
    intro i _ _ e he
    exact nomatch he
  | cons r rest ih =>
    obtain ⟨s, n⟩ := r
    intro i hpos htotal e he
    rw [total_cons] at htotal
    have hn : 0 < n := hpos _ (.head _)
    have hrest : ∀ r ∈ rest, 0 < r.2 := fun r hr => hpos r (.tail _ hr)
    rcases mem_cons.mp he with rfl | hmem
    · have hlt : i * bs < size := (lt_blockCount_iff hbs).mp (by omega)
      by_cases hnil : rest = []
      · simp only [if_pos hnil]
        omega
      simp only [if_neg hnil]
      have hmore := total_pos hnil hrest
      have hle : n * bs < size := (lt_blockCount_iff hbs).mp (by omega)
      exact ⟨Nat.mul_pos hn hbs, Nat.le_of_lt hle⟩
    · exact ih hrest (by omega) e hmem

end

end Cervus
