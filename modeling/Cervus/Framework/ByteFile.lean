import Mathlib.Data.List.GetD
import Cervus.Framework.Bytes

/-! # Files as byte arrays, and files as blocks

    A `ByteFile` is what a file is for: bytes up to a size, zeros after it. A driver keeps the
    bytes in blocks and goes through a range piece by piece, each piece inside one block.
    `flat` is the array that the blocks make up; `gather_eq_slice` and `scatter_spec` say that
    going through a range by pieces reads, or overwrites, that range of it. -/

namespace Cervus

open List Nat

/-! ## Section 1: Ranges of bytes -/

/-- The `n` bytes from `off` on. -/
def slice (b : Bytes) (off n : Nat) : List UInt8 := (List.range n).map fun i => b (off + i)

/-- The bytes after `data` is copied to `off`. -/
def overwrite (b : Bytes) (off : Nat) (data : List UInt8) : Bytes := fun i =>
  if off ≤ i ∧ i < off + data.length then data.getD (i - off) 0 else b i

section

variable {b : Bytes} {off n m : Nat} {data : List UInt8}

@[simp] theorem length_slice : (slice b off n).length = n := by
  rw [slice, length_map, length_range]

@[simp] theorem slice_zero : slice b off 0 = [] := rfl

theorem slice_append (b : Bytes) (off n m : Nat) :
    slice b off n ++ slice b (off + n) m = slice b off (n + m) := by
  simp only [slice, range_add, map_append, map_map, Function.comp_def, Nat.add_assoc]

theorem slice_congr {b' : Bytes} {off' : Nat} (h : ∀ i < n, b' (off' + i) = b (off + i)) :
    slice b' off' n = slice b off n :=
  map_congr_left fun i hi => h i (mem_range.mp hi)

theorem getD_slice {i : Nat} (h : i < n) : (slice b off n).getD i 0 = b (off + i) := by
  simp [slice, getD_eq_getElem?_getD, h]

@[simp] theorem overwrite_nil : overwrite b off [] = b := by
  funext i
  exact if_neg (by simp only [length_nil]; omega)

theorem overwrite_of_mem {i : Nat} (h : off ≤ i) (hi : i < off + data.length) :
    overwrite b off data i = data.getD (i - off) 0 := if_pos ⟨h, hi⟩

theorem overwrite_of_not_mem {i : Nat} (h : i < off ∨ off + data.length ≤ i) :
    overwrite b off data i = b i := if_neg (by omega)

/-- Two copies, the second right after the first, are one. -/
theorem overwrite_append (b : Bytes) (off : Nat) (xs ys : List UInt8) :
    overwrite (overwrite b off xs) (off + xs.length) ys = overwrite b off (xs ++ ys) := by
  funext i
  by_cases hx : i < off + xs.length
  · rw [overwrite_of_not_mem (.inl hx)]
    by_cases hoff : off ≤ i
    · rw [overwrite_of_mem hoff hx, overwrite_of_mem hoff (by rw [length_append]; omega),
        getD_append _ _ _ _ (by omega)]
    · rw [overwrite_of_not_mem (.inl (by omega)), overwrite_of_not_mem (.inl (by omega))]
  by_cases hy : i < off + xs.length + ys.length
  · rw [overwrite_of_mem (by omega) hy,
      overwrite_of_mem (by omega) (by rw [length_append]; omega),
      getD_append_right _ _ _ _ (by omega), Nat.sub_sub]
  · rw [overwrite_of_not_mem (.inr (by omega)), overwrite_of_not_mem (.inr (by omega)),
      overwrite_of_not_mem (.inr (by rw [length_append]; omega))]

/-- The bytes differ at most from `lo` to `hi`. -/
def SameOutside (lo hi : Nat) (b b' : Bytes) : Prop := ∀ i, i < lo ∨ hi ≤ i → b i = b' i

theorem SameOutside.refl (lo hi : Nat) (b : Bytes) : SameOutside lo hi b b := fun _ _ => rfl

theorem SameOutside.trans {lo hi : Nat} {a b c : Bytes} (h : SameOutside lo hi a b)
    (h' : SameOutside lo hi b c) : SameOutside lo hi a c :=
  fun i hi => (h i hi).trans (h' i hi)

theorem SameOutside.mono {lo hi lo' hi' : Nat} {a b : Bytes} (h : SameOutside lo hi a b)
    (hlo : lo' ≤ lo) (hhi : hi ≤ hi') : SameOutside lo' hi' a b :=
  fun i hi => h i (by omega)

/-- What is overwritten does not matter. -/
theorem SameOutside.overwrite_eq {b b' : Bytes}
    (h : SameOutside off (off + data.length) b b') :
    overwrite b off data = overwrite b' off data := by
  funext i
  by_cases hi : off ≤ i ∧ i < off + data.length
  · rw [overwrite_of_mem hi.1 hi.2, overwrite_of_mem hi.1 hi.2]
  · rw [overwrite_of_not_mem (by omega), overwrite_of_not_mem (by omega), h i (by omega)]

end

/-! ## Section 2: Blocks -/

/-- The array that the blocks make up. -/
def flat (bs : Nat) (blk : Nat → Bytes) : Bytes := fun i => blk (i / bs) (i % bs)

/-- How much of the `len` bytes from `pos` on is in the first block. -/
def piece (bs pos len : Nat) : Nat := min (bs - pos % bs) len

section

variable {bs pos len n : Nat} {blk : Nat → Bytes}

theorem piece_pos (pos : Nat) (hbs : 0 < bs) (hlen : 0 < len) : 0 < piece bs pos len := by
  have hmod := mod_lt pos hbs
  unfold piece
  omega

theorem piece_le (bs pos len : Nat) : piece bs pos len ≤ len := Nat.min_le_right _ _

theorem mod_add_piece_le (pos len : Nat) (hbs : 0 < bs) : pos % bs + piece bs pos len ≤ bs := by
  have hmod := mod_lt pos hbs
  unfold piece
  omega

/-- The bytes of a piece are in one block. -/
theorem div_mod_of_piece {i : Nat} (hi : pos % bs + i < bs) :
    (pos + i) / bs = pos / bs ∧ (pos + i) % bs = pos % bs + i := by
  have hpos := div_add_mod pos bs
  have heq : pos + i = pos % bs + i + bs * (pos / bs) := by omega
  rw [heq]
  constructor
  · rw [add_mul_div_left _ _ (by omega), div_eq_of_lt hi, Nat.zero_add]
  · rw [add_mul_mod_self_left, mod_eq_of_lt hi]

theorem slice_flat (h : pos % bs + n ≤ bs) :
    slice (flat bs blk) pos n = slice (blk (pos / bs)) (pos % bs) n := by
  apply slice_congr
  intro i hi
  have hin : pos % bs + i < bs := by omega
  obtain ⟨hdiv, hmod⟩ := div_mod_of_piece hin
  rw [flat, hdiv, hmod]

/-- Overwriting a piece is overwriting in its block. -/
theorem flat_update {data : List UInt8} (hbs : 0 < bs) (h : pos % bs + data.length ≤ bs) :
    flat bs (Function.update blk (pos / bs) (overwrite (blk (pos / bs)) (pos % bs) data)) =
      overwrite (flat bs blk) pos data := by
  funext i
  have hpos := div_add_mod pos bs
  have hi := div_add_mod i bs
  have hlt := mod_lt i hbs
  by_cases hdiv : i / bs = pos / bs
  · rw [flat, hdiv, Function.update_self]
    rw [hdiv] at hi
    by_cases hmem : pos ≤ i ∧ i < pos + data.length
    · rw [overwrite_of_mem hmem.1 hmem.2, overwrite_of_mem (by omega) (by omega)]
      congr 1
      omega
    · rw [overwrite_of_not_mem (by omega), overwrite_of_not_mem (by omega), flat, hdiv]
  rw [flat, Function.update_of_ne hdiv, overwrite_of_not_mem ?_, flat]
  -- a byte of another block is on the other side of the block's ends
  rcases Nat.lt_or_gt_of_ne hdiv with hlow | hhigh
  · left
    calc i < bs * (i / bs + 1) := by rw [mul_succ]; omega
      _ ≤ bs * (pos / bs) := Nat.mul_le_mul_left bs hlow
      _ ≤ pos := by omega
  right
  calc pos + data.length ≤ bs * (pos / bs + 1) := by rw [mul_succ]; omega
    _ ≤ bs * (i / bs) := Nat.mul_le_mul_left bs hhigh
    _ ≤ i := by omega

end

/-! ## Section 3: Going through a range by pieces -/

/-- Reads a range: `get k off n` are `n` bytes of block `k`. -/
def gather (bs : Nat) (get : Nat → Nat → Nat → List UInt8) : Nat → Nat → Nat → List UInt8
  | 0, _, _ => []
  | fuel + 1, pos, len =>
    if len = 0 then []
    else
      let n := piece bs pos len
      get (pos / bs) (pos % bs) n ++ gather bs get fuel (pos + n) (len - n)

/-- Writes a range: `put k off data` writes `data` to block `k`. -/
def scatter {σ : Type*} (bs : Nat) (put : Nat → Nat → List UInt8 → σ → Option σ) :
    Nat → Nat → List UInt8 → σ → Option σ
  | 0, _, _, s => some s
  | fuel + 1, pos, data, s =>
    if data.length = 0 then some s
    else
      let n := piece bs pos data.length
      (put (pos / bs) (pos % bs) (data.take n) s).bind
        (scatter bs put fuel (pos + n) (data.drop n))

section

variable {bs : Nat}

theorem gather_eq_slice (hbs : 0 < bs) (blk : Nat → Bytes) {get : Nat → Nat → Nat → List UInt8}
    {fuel : Nat} : ∀ {pos len : Nat}, len ≤ fuel →
      (∀ k off n, off + n ≤ bs → k * bs + off + n ≤ pos + len → get k off n = slice (blk k) off n) →
      gather bs get fuel pos len = slice (flat bs blk) pos len := by
  induction fuel with
  | zero =>
    intro pos len hfuel _
    obtain rfl : len = 0 := by omega
    rfl
  | succ fuel ih =>
    intro pos len hfuel hget
    rw [gather]
    split
    · next hlen => rw [hlen, slice_zero]
    next hlen =>
    have hpos := piece_pos pos hbs (Nat.pos_of_ne_zero hlen)
    have hle := piece_le bs pos len
    have hfit := mod_add_piece_le pos len hbs
    have hdiv := div_add_mod pos bs
    simp only
    rw [ih (by omega), hget _ _ _ hfit (by rw [Nat.mul_comm]; omega), ← slice_flat hfit,
      slice_append, Nat.add_sub_cancel' hle]
    intro k off n hoff hk
    exact hget k off n hoff (by omega)

/-- If every piece is written in its block, the range is overwritten. What the invariant says,
    and how the blocks are viewed, may depend on the position that has been reached. A piece ends
    with its block or with the range. -/
theorem scatter_spec {σ : Type*} (hbs : 0 < bs) {put : Nat → Nat → List UInt8 → σ → Option σ}
    (view : Nat → σ → Nat → Bytes) (inv : Nat → σ → Prop) {last : Nat}
    (hput : ∀ pos data s, inv pos s → 0 < data.length → pos % bs + data.length ≤ bs →
      pos + data.length ≤ last →
      (pos + data.length = last ∨ pos % bs + data.length = bs) →
      ∃ s', put (pos / bs) (pos % bs) data s = some s' ∧
        inv (pos + data.length) s' ∧ view (pos + data.length) s' =
          Function.update (view pos s) (pos / bs)
            (overwrite (view pos s (pos / bs)) (pos % bs) data))
    {fuel : Nat} : ∀ {pos : Nat} {data : List UInt8} {s : σ}, data.length ≤ fuel →
      pos + data.length = last → inv pos s → ∃ s', scatter bs put fuel pos data s = some s' ∧
        inv (pos + data.length) s' ∧
        flat bs (view (pos + data.length) s') = overwrite (flat bs (view pos s)) pos data := by
  induction fuel with
  | zero =>
    intro pos data s hfuel _ hinv
    obtain rfl : data = [] := eq_nil_of_length_eq_zero (by omega)
    exact ⟨s, rfl, hinv, overwrite_nil.symm⟩
  | succ fuel ih =>
    intro pos data s hfuel hlast hinv
    rw [scatter]
    split
    · next hlen =>
      obtain rfl : data = [] := eq_nil_of_length_eq_zero hlen
      exact ⟨s, rfl, hinv, overwrite_nil.symm⟩
    next hlen =>
    have hpos := piece_pos pos hbs (Nat.pos_of_ne_zero hlen)
    have hle := piece_le bs pos data.length
    have hfit := mod_add_piece_le pos data.length hbs
    have hend : pos + piece bs pos data.length = last ∨
        pos % bs + piece bs pos data.length = bs := by
      unfold piece
      omega
    simp only
    generalize hn : piece bs pos data.length = n at *
    have htake : (data.take n).length = n := length_take_of_le hle
    have hdrop : (data.drop n).length = data.length - n := length_drop
    obtain ⟨s1, hs1, hinv1, hview1⟩ := hput pos (data.take n) s hinv (by omega) (by omega)
      (by omega) (by rw [htake]; exact hend)
    rw [htake] at hinv1 hview1
    have hfuel' : (data.drop n).length ≤ fuel := by omega
    have hlast' : pos + n + (data.drop n).length = last := by omega
    obtain ⟨s2, hs2, hinv2, hview2⟩ := ih hfuel' hlast' hinv1
    have hsum : pos + n + (data.drop n).length = pos + data.length := by omega
    rw [hsum] at hinv2 hview2
    refine ⟨s2, ?_, hinv2, ?_⟩
    · rw [hs1]
      exact hs2
    · have hstep := overwrite_append (flat bs (view pos s)) pos (data.take n) (data.drop n)
      rw [htake, take_append_drop] at hstep
      rw [hview2, hview1, flat_update hbs (by omega), hstep]

end

/-! ## Section 4: Byte arrays -/

/-- Bytes up to a size, zeros after it. -/
structure ByteFile where
  size : Nat
  byte : Bytes
  zero_after : ∀ i, size ≤ i → byte i = 0

namespace ByteFile

def empty : ByteFile := ⟨0, fun _ => 0, fun _ _ => rfl⟩

/-- The first `n` bytes of a buffer. -/
def ofBytes (n : Nat) (b : Bytes) : ByteFile where
  size := n
  byte i := if i < n then b i else 0
  zero_after _ hi := if_neg (Nat.not_lt.mpr hi)

theorem ofBytes_byte {n : Nat} {b : Bytes} {i : Nat} (hi : i < n) : (ofBytes n b).byte i = b i :=
  if_pos hi

/-- A file is its bytes below the size. -/
theorem ofBytes_eq {f : ByteFile} {b : Bytes} (h : ∀ i < f.size, b i = f.byte i) :
    ofBytes f.size b = f := by
  obtain ⟨size, byte, hzero⟩ := f
  have hbyte : (fun i => if i < size then b i else 0) = byte := by
    funext i
    split
    · next hlt => exact h i hlt
    · next hge => exact (hzero i (Nat.not_lt.mp hge)).symm
  subst hbyte
  rfl

/-- The bytes of the range that are below the size. -/
def read (f : ByteFile) (off len : Nat) : List UInt8 := slice f.byte off (min len (f.size - off))

/-- A write past the end leaves zeros before it. -/
def write (f : ByteFile) (off : Nat) (data : List UInt8) : ByteFile where
  size := max f.size (off + data.length)
  byte := overwrite f.byte off data
  zero_after i hi := by
    rw [overwrite_of_not_mem (.inr (by omega))]
    exact f.zero_after i (by omega)

/-- What is cut off is zero when the file grows again. -/
def truncate (f : ByteFile) (n : Nat) : ByteFile where
  size := n
  byte i := if i < n then f.byte i else 0
  zero_after _ hi := if_neg (Nat.not_lt.mpr hi)

end ByteFile

end Cervus
