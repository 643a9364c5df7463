import Cervus.Fs.Udf

/-! # UDF: taking and returning blocks

    The free blocks in order are what allocation goes through (`freeList`): it takes the first,
    and with it that one leaves the list. All this changes the sectors of the bitmap only. -/

namespace Cervus.Udf

open List

@[simp] theorem kmalloc_of_nil {fs : Fs} (h : fs.failAfter = []) : kmalloc fs = (true, fs) := by
  unfold kmalloc
  rw [h]

/-! ## Section 1: The sectors of the bitmap -/

/-- There is a bitmap, it has a bit for every block, and sector numbers have 32 bits. -/
structure Sound (g : Geometry) : Prop where
  block  : 0 < g.blockSize
  small  : g.blockSize < 2 ^ 32
  bitmap : g.bitmapLba ≠ 0
  bits   : g.bitmapNbits ≤ 8 * g.bitmapNbytes
  sectors : g.bitmapLba + bitmapSectors g ≤ 2 ^ 32
  blocks : g.partStart + g.bitmapNbits ≤ 2 ^ 32

def InBitmap (g : Geometry) (l : Nat) : Prop :=
  g.bitmapLba ≤ l ∧ l < g.bitmapLba + bitmapSectors g

/-- The two devices differ in the bitmap at most. -/
def SameData (g : Geometry) (d d' : Disk) : Prop := ∀ l, ¬ InBitmap g l → d' l = d l

section

variable {g : Geometry} {d d' : Disk} {fs : Fs}

theorem SameData.refl (g : Geometry) (d : Disk) : SameData g d d := fun _ _ => rfl

theorem SameData.trans {d'' : Disk} (h : SameData g d d') (h' : SameData g d' d'') :
    SameData g d d'' := fun l hl => (h' l hl).trans (h l hl)

theorem bitmapBuf_apply (d : Disk) (i : Nat) :
    bitmapBuf g d i = d (u32 (g.bitmapLba + i / g.blockSize)) (i % g.blockSize) := rfl

theorem bitOf_div (b : Nat) : bitOf b / 8 = 24 + b / 8 := by
  unfold bitOf
  omega

section

variable (hg : Sound g) {b x : Nat}
include hg

theorem Sound.lba_eq (hb : b < g.bitmapNbits) : lba g b = g.partStart + b := by
  have hblocks := hg.blocks
  exact u32_of_lt (by omega)

theorem Sound.lba_inj {c : Nat} (hb : b < g.bitmapNbits) (hc : c < g.bitmapNbits)
    (h : lba g b = lba g c) : b = c := by
  rw [hg.lba_eq hb, hg.lba_eq hc] at h
  omega

/-- The byte of a bit is in one of the sectors. -/
theorem Sound.byte_lt (hb : b < g.bitmapNbits) :
    (24 + b / 8) / g.blockSize < bitmapSectors g := by
  have hbits := hg.bits
  have hbyte : 24 + b / 8 < 24 + g.bitmapNbytes := by omega
  rw [Nat.div_lt_iff_lt_mul hg.block]
  exact Nat.lt_of_lt_of_le hbyte ((blockCount_le_iff hg.block).mp (le_rfl))

theorem Sound.sector_eq {s : Nat} (hs : s < bitmapSectors g) :
    u32 (g.bitmapLba + s) = g.bitmapLba + s := by
  have hsectors := hg.sectors
  exact u32_of_lt (by omega)

/-- After a sector is written back, the bits of the bitmap are those of the buffer, if the buffer
    differs from the bitmap in the byte of that bit only. -/
theorem isFree_writeBit {buf : Bytes} (hb : b < g.bitmapNbits) (hx : x < g.bitmapNbits)
    (hsame : ∀ i, i ≠ 24 + b / 8 → buf i = bitmapBuf g d i) :
    isFree g (writeBit g d buf b) x = Bitmap.test buf (bitOf x) := by
  have hbuf : bitmapBuf g (writeBit g d buf b) (24 + x / 8) = buf (24 + x / 8) := by
    rw [bitmapBuf_apply]
    unfold writeBit
    by_cases hsec : (24 + x / 8) / g.blockSize = (24 + b / 8) / g.blockSize
    · rw [hsec, Function.update_self, ← hsec, Nat.div_add_mod']
    rw [Function.update_of_ne, hsame _ (fun heq => hsec (by rw [heq]))]
    · rfl
    · rw [hg.sector_eq (hg.byte_lt hx), hg.sector_eq (hg.byte_lt hb)]
      omega
  unfold isFree Bitmap.test
  rw [bitOf_div, hbuf]

theorem sameData_writeBit (buf : Bytes) (hb : b < g.bitmapNbits) :
    SameData g d (writeBit g d buf b) := by
  intro l hl
  apply Function.update_of_ne
  rintro rfl
  have hsec := hg.byte_lt hb
  rw [hg.sector_eq hsec] at hl
  exact hl ⟨Nat.le_add_right _ _, Nat.add_lt_add_left hsec _⟩

theorem isFree_clear (hb : b < g.bitmapNbits) (hx : x < g.bitmapNbits) :
    isFree g (writeBit g d (Bitmap.clear (bitmapBuf g d) (bitOf b)) b) x =
      if x = b then false else isFree g d x := by
  rw [isFree_writeBit hg hb hx, Bitmap.test_clear]
  · unfold bitOf isFree
    simp only [Nat.add_left_cancel_iff]
    rfl
  intro i hi
  unfold Bitmap.clear
  rw [bitOf_div]
  exact if_neg hi

theorem isFree_set (hb : b < g.bitmapNbits) (hx : x < g.bitmapNbits) :
    isFree g (writeBit g d (Bitmap.set (bitmapBuf g d) (bitOf b)) b) x =
      if x = b then true else isFree g d x := by
  rw [isFree_writeBit hg hb hx, Bitmap.test_set]
  · unfold bitOf isFree
    simp only [Nat.add_left_cancel_iff]
    rfl
  intro i hi
  unfold Bitmap.set
  rw [bitOf_div]
  exact if_neg hi

theorem isFree_congr (h : ∀ l, InBitmap g l → d' l = d l) (hx : x < g.bitmapNbits) :
    isFree g d' x = isFree g d x := by
  unfold isFree Bitmap.test
  rw [bitOf_div, bitmapBuf_apply, bitmapBuf_apply]
  have hsec := hg.byte_lt hx
  rw [hg.sector_eq hsec, h _ ⟨Nat.le_add_right _ _, Nat.add_lt_add_left hsec _⟩]

end

/-! ## Section 2: The free blocks in order -/

/-- The free blocks, the lowest first. -/
def freeList (g : Geometry) (d : Disk) : List Nat := (List.range g.bitmapNbits).filter (isFree g d)

theorem mem_freeList {b : Nat} : b ∈ freeList g d ↔ b < g.bitmapNbits ∧ isFree g d b = true := by
  rw [freeList, mem_filter, mem_range]

theorem nodup_freeList (g : Geometry) (d : Disk) : (freeList g d).Nodup := nodup_range.filter _

theorem freeList_congr {p : Nat → Bool} (h : ∀ x < g.bitmapNbits, isFree g d x = p x) :
    freeList g d = (List.range g.bitmapNbits).filter p :=
  filter_congr fun x hx => h x (mem_range.mp hx)

/-- Allocation takes the first free block. -/
theorem allocBlock_spec (hg : Sound g) (hmem : fs.failAfter = []) :
    (freeList g fs.disk = [] → allocBlock g fs = (none, fs)) ∧
    ∀ b rest, freeList g fs.disk = b :: rest → ∃ d',
      allocBlock g fs = (some b, { fs with disk := d' }) ∧ freeList g d' = rest ∧
      SameData g fs.disk d' := by
  have hfind : (List.range g.bitmapNbits).find? (isFree g fs.disk) = (freeList g fs.disk).head? :=
    (head?_filter ..).symm
  refine ⟨fun hnil => ?_, fun b rest hcons => ?_⟩
  · unfold allocBlock
    by_cases hzero : g.bitmapLba = 0 ∨ g.bitmapNbits = 0
    · rw [if_pos hzero]
    · rw [if_neg hzero]
      simp only [kmalloc_of_nil hmem, hfind, hnil]
      rfl
  have hmemb : b ∈ freeList g fs.disk := by
    rw [hcons]
    exact .head _
  obtain ⟨hb, -⟩ := mem_freeList.mp hmemb
  have hgo : ¬ (g.bitmapLba = 0 ∨ g.bitmapNbits = 0) := by
    have hbitmap := hg.bitmap
    omega
  refine ⟨writeBit g fs.disk (Bitmap.clear (bitmapBuf g fs.disk) (bitOf b)) b, ?_, ?_,
    sameData_writeBit hg _ hb⟩
  · unfold allocBlock
    rw [if_neg hgo]
    simp only [kmalloc_of_nil hmem, hfind, hcons]
    rfl
  -- the list without its first element
  have hnodup := nodup_freeList g fs.disk
  rw [hcons] at hnodup
  have hsplit : freeList g (writeBit g fs.disk
      (Bitmap.clear (bitmapBuf g fs.disk) (bitOf b)) b) =
      (freeList g fs.disk).filter fun x => x ≠ b := by
    rw [freeList_congr fun x hx => isFree_clear hg hb hx, freeList, filter_filter]
    apply filter_congr
    intro x _
    by_cases hxb : x = b
    · simp [hxb]
    · simp [hxb]
  rw [hsplit, hcons, filter_cons_of_neg (by simp)]
  apply filter_eq_self.mpr
  intro x hx
  exact decide_eq_true fun heq => (nodup_cons.mp hnodup).1 (heq ▸ hx)

/-- Taking `n` blocks takes the first `n` free ones, or all of them. -/
theorem allocBlocks_spec (hg : Sound g) (n : Nat) : ∀ {fs : Fs}, fs.failAfter = [] → ∃ d',
      allocBlocks g n fs = ((freeList g fs.disk).take n, { fs with disk := d' }) ∧
      freeList g d' = (freeList g fs.disk).drop n ∧ SameData g fs.disk d' := by
  induction n with
  | zero =>
    intro fs _
    exact ⟨fs.disk, rfl, rfl, .refl _ _⟩
  | succ n ih =>
    intro fs hmem
    obtain ⟨hnone, hsome⟩ := allocBlock_spec hg hmem
    rw [allocBlocks]
    cases hlist : freeList g fs.disk with
    | nil =>
      rw [hnone hlist]
      exact ⟨fs.disk, rfl, hlist, .refl _ _⟩
    | cons b rest =>
      obtain ⟨d1, halloc, hrest, hsame⟩ := hsome b rest hlist
      obtain ⟨d2, hmore, hdrop, hsame2⟩ := @ih { fs with disk := d1 } hmem
      rw [halloc]
      simp only [hmore, hrest, take_succ_cons, drop_succ_cons] at hdrop hsame2 ⊢
      exact ⟨d2, rfl, hdrop, hsame.trans hsame2⟩

theorem freeBlock_spec (hg : Sound g) (hmem : fs.failAfter = []) {b : Nat}
    (hb : b < g.bitmapNbits) : ∃ d', freeBlock g fs b = { fs with disk := d' } ∧
      (∀ x < g.bitmapNbits, isFree g d' x = (isFree g fs.disk x || decide (x = b))) ∧
      SameData g fs.disk d' := by
  have hgo : ¬ (g.bitmapLba = 0 ∨ b ≥ g.bitmapNbits) := by
    have hbitmap := hg.bitmap
    omega
  unfold freeBlock
  rw [if_neg hgo]
  simp only [kmalloc_of_nil hmem]
  by_cases hfree : isFree g fs.disk b = true
  · refine ⟨fs.disk, by simp [hfree], fun x _ => ?_, .refl _ _⟩
    by_cases hx : x = b
    · simp [hx, hfree]
    · simp [hx]
  refine ⟨writeBit g fs.disk (Bitmap.set (bitmapBuf g fs.disk) (bitOf b)) b, by simp [hfree],
    fun x hx => ?_, sameData_writeBit hg _ hb⟩
  rw [isFree_set hg hb hx]
  by_cases hxb : x = b
  · simp [hxb]
  · simp [hxb]

/-- Returning blocks makes them free. -/
theorem freeBlocks_spec (hg : Sound g) (blocks : List Nat) :
    ∀ {fs : Fs}, fs.failAfter = [] → (∀ b ∈ blocks, b < g.bitmapNbits) →
      ∃ d', freeBlocks g fs blocks = { fs with disk := d' } ∧
        (∀ x < g.bitmapNbits, isFree g d' x = (isFree g fs.disk x || decide (x ∈ blocks))) ∧
        SameData g fs.disk d' := by
  induction blocks with
  | nil =>
    intro fs _ _
    exact ⟨fs.disk, rfl, fun x _ => by simp, .refl _ _⟩
  | cons b rest ih =>
    intro fs hmem hlt
    obtain ⟨d1, hone, hfree, hsame⟩ := freeBlock_spec hg hmem (hlt b (.head _))
    obtain ⟨d2, hmore, hfree2, hsame2⟩ :=
      @ih { fs with disk := d1 } hmem fun x hx => hlt x (.tail _ hx)
    refine ⟨d2, ?_, fun x hx => ?_, hsame.trans hsame2⟩
    · rw [freeBlocks, foldl_cons, hone]
      exact hmore
    · rw [hfree2 x hx]
      simp only [hfree x hx, mem_cons, Bool.or_assoc, Bool.decide_or]

end

end Cervus.Udf
