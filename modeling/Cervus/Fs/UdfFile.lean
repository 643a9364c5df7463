import Mathlib.Data.List.TakeWhile
import Cervus.Fs.UdfEntry

/-! # UDF: the bytes of a file

    A file entry and, when the data does not fit into it, the blocks that it lists hold the bytes
    of a file (`FileIs`). The last block is zero behind the end of the file, so that a file that
    grows finds zeros there. A read returns these bytes, and an entry that is written anew holds
    the new ones. -/

namespace Cervus.Udf

open Function List

/-! ## Section 1: Files on the disk -/

/-- The data is in the entry. -/
structure Inline (g : Geometry) (fe : Bytes) (f : ByteFile) : Prop where
  type  : adType fe = 3
  len   : lAd fe = f.size
  fits  : f.size ≤ inlineCap g fe
  bytes : ∀ i < f.size, fe (adArea fe + i) = f.byte i

/-- The blocks are used ones, and neither the entry's nor the bitmap's. -/
structure Owned (g : Geometry) (d : Disk) (feLba : Nat) (blocks : List Nat) : Prop where
  used  : ∀ b ∈ blocks, b < g.bitmapNbits ∧ isFree g d b = false
  apart : ∀ b ∈ blocks, lba g b ≠ feLba ∧ ¬ InBitmap g (lba g b)
  nodup : blocks.Nodup

/-- The blocks hold the bytes of a file, and zeros behind them. -/
def HoldBytes (g : Geometry) (d : Disk) (blocks : List Nat) (b : Bytes) : Prop :=
  ∀ k c, blocks[k]? = some c → ∀ o < g.blockSize, d (lba g c) o = b (k * g.blockSize + o)

/-- The data is in blocks. -/
structure InBlocks (g : Geometry) (d : Disk) (feLba : Nat) (blocks : List Nat) (f : ByteFile) :
    Prop where
  type  : adType (d feLba) = 0
  count : blocks.length = blockCount g.blockSize f.size
  ads   : shortAds (d feLba) = extents g.blockSize f.size 0 (runs blocks)
  len   : lAd (d feLba) = 8 * (runs blocks).length
  fits  : lAd (d feLba) ≤ inlineCap g (d feLba)
  owned : Owned g d feLba blocks
  bytes : HoldBytes g d blocks f.byte

structure FileIs (g : Geometry) (d : Disk) (feLba : Nat) (f : ByteFile) : Prop where
  header : HeaderFits g (d feLba)
  size   : infoLen (d feLba) = f.size
  small  : f.size ≤ maxSize
  data   : Inline g (d feLba) f ∨ ∃ blocks, InBlocks g d feLba blocks f

/-- The blocks that the entry lists. -/
def ownBlocks (g : Geometry) (fe : Bytes) : List Nat :=
  if adType fe = 0 then loadBlocks g fe else []

/-- Neither the bitmap nor the entry is in a free block, and they are not the same. -/
structure Volume (g : Geometry) (d : Disk) (feLba : Nat) : Prop where
  entry : ¬ InBitmap g feLba
  free  : ∀ b < g.bitmapNbits, isFree g d b = true →
    lba g b ≠ feLba ∧ ¬ InBitmap g (lba g b)

/-! ## Section 2: Reading -/

section

variable {g : Geometry} {d : Disk} {feLba offset : Nat} {f : ByteFile} {blocks : List Nat}

theorem readAds_eq {fe : Bytes} (htype : adType fe ≠ 1) (hfits : adArea fe + lAd fe ≤ g.blockSize) :
    readAds g fe = shortAds fe := by
  have hall : ∀ p ∈ (List.range (lAd fe / 8)).map (fun k => adArea fe + 8 * k),
      decide (p + 8 ≤ g.blockSize) = true := by
    intro p hp
    obtain ⟨k, hk, rfl⟩ := mem_map.mp hp
    have hk := mem_range.mp hk
    exact decide_eq_true (by omega)
  simp only [readAds, if_neg htype]
  rw [takeWhile_eq_self_iff.mpr hall, map_map]
  rfl

/-- Gathering the bytes of a part of an extent, of which `i` blocks come before. -/
theorem gather_extent (hg : Sound g) {view : Nat → Bytes} {s n i p m fuel : Nat}
    (hview : ∀ q < n, s + q < g.bitmapNbits ∧
      ∀ o < g.blockSize, d (lba g (s + q)) o = view (i + q) o)
    (hp : i * g.blockSize ≤ p) (hm : p + m ≤ (i + n) * g.blockSize) (hfuel : m ≤ fuel) :
    gather g.blockSize (fun k off n => slice (d (u32 (lba g s + k))) off n) fuel
      (p - i * g.blockSize) m = slice (flat g.blockSize view) p m := by
  have hbs := hg.block
  obtain ⟨r, rfl⟩ := Nat.exists_eq_add_of_le hp
  rw [Nat.add_sub_cancel_left,
    gather_eq_slice hbs (fun k => d (u32 (lba g s + k))) hfuel fun _ _ _ _ _ => rfl]
  apply slice_congr
  intro t ht
  rw [Nat.add_mul] at hm
  obtain ⟨hlt, hsec⟩ := hview ((r + t) / g.blockSize) ((Nat.div_lt_iff_lt_mul hbs).mpr (by omega))
  have hlba : u32 (lba g s + (r + t) / g.blockSize) = lba g (s + (r + t) / g.blockSize) := by
    have hs : s < g.bitmapNbits := Nat.lt_of_le_of_lt (Nat.le_add_right _ _) hlt
    rw [hg.lba_eq hlt, hg.lba_eq hs, Nat.add_assoc]
    exact u32_of_lt (Nat.lt_of_lt_of_le (Nat.add_lt_add_left hlt _) hg.blocks)
  rw [flat, hlba, hsec _ (Nat.mod_lt _ hbs), flat, Nat.add_assoc, Nat.mul_comm i,
    Nat.mul_add_div hbs, Nat.mul_add_mod]

theorem readExtents_done {len copied : Nat} (h : len ≤ copied) (es : List (Nat × Nat))
    (pos : Nat) : readExtents g d len offset es pos copied = [] := by
  cases es with
  | nil => rfl
  | cons e es => rw [readExtents, if_pos h]

/-- Going through the extents of a file reads its bytes. -/
theorem readExtents_spec (hg : Sound g) {size len : Nat} (view : Nat → Bytes)
    (hsize : size ≤ maxSize) (hend : offset + len ≤ size) (rs : List (Nat × Nat)) :
    ∀ {i copied : Nat}, (∀ r ∈ rs, 0 < r.2) → i + total rs = blockCount g.blockSize size →
      (∀ k b, (rs.flatMap run)[k]? = some b → b < g.bitmapNbits ∧
        ∀ o < g.blockSize, d (lba g b) o = view (i + k) o) →
      copied ≤ len → i * g.blockSize ≤ offset + copied →
      readExtents g d len offset (extents g.blockSize size i rs) (i * g.blockSize) copied =
        slice (flat g.blockSize view) (offset + copied) (len - copied) := by
  have hbs := hg.block
  induction rs with
  | nil =>
    intro i copied _ htotal _ hcopied hle
    rw [total_nil, Nat.add_zero] at htotal
    have hcover := (blockCount_le_iff hbs).mp (Nat.le_of_eq htotal.symm)
    rw [show len - copied = 0 by omega]
    rfl
  | cons r rest ih =>
    obtain ⟨s, n⟩ := r
    intro i copied hpos htotal hview hcopied hle
    have hlens := extents_len hbs size ((s, n) :: rest) hpos htotal
    rw [total_cons] at htotal
    simp only at htotal
    rw [extents] at hlens ⊢
    generalize hlen : (if rest = [] then size - i * g.blockSize else n * g.blockSize) = e at hlens ⊢
    obtain ⟨hepos, hesize⟩ : 0 < e ∧ e ≤ size := hlens (e, s) (.head _)
    unfold maxSize at hsize
    rw [readExtents, Nat.mod_eq_of_lt (show e < 2 ^ 30 by omega),
      Nat.div_eq_of_lt (show e < 2 ^ 30 by omega)]
    by_cases hdone : len ≤ copied
    · rw [if_pos hdone, show len - copied = 0 by omega]
      rfl
    rw [if_neg hdone, if_neg (by omega), if_neg (by omega)]
    simp only
    have hnext : i * g.blockSize + n * g.blockSize = (i + n) * g.blockSize := (Nat.add_mul ..).symm
    -- the extent ends with the file, or with a block of the run
    have hextent : (rest = [] ∧ i * g.blockSize + e = size ∨
        rest ≠ [] ∧ e = n * g.blockSize) ∧ e ≤ n * g.blockSize := by
      split at hlen
      · next hnil =>
        rw [hnil, total_nil, Nat.add_zero] at htotal
        have hcover := (blockCount_le_iff hbs).mp (Nat.le_of_eq htotal.symm)
        exact ⟨.inl ⟨hnil, by omega⟩, by omega⟩
      · next hnil => exact ⟨.inr ⟨hnil, hlen.symm⟩, Nat.le_of_eq hlen.symm⟩
    have hfirst : ∀ q < n, s + q < g.bitmapNbits ∧
        ∀ o < g.blockSize, d (lba g (s + q)) o = view (i + q) o := by
      intro q hq
      refine hview q (s + q) ?_
      rw [flatMap_cons, List.getElem?_append_left]
      · rw [run, List.getElem?_map, List.getElem?_range hq]
        rfl
      · rw [run, length_map, length_range]
        exact hq
    generalize hturn : (if offset + copied < i * g.blockSize + e ∧
        offset + copied ≥ i * g.blockSize then _ else []) = bytes
    -- what the turn copies ends with the extent or with the range
    have hcopy : bytes = slice (flat g.blockSize view) (offset + copied) bytes.length ∧
        copied + bytes.length ≤ len ∧
        (copied + bytes.length = len ∨ i * g.blockSize + e ≤ offset + copied + bytes.length) := by
      split at hturn
      · rw [gather_extent hg hfirst hle (by omega) (by omega)] at hturn
        rw [← hturn, length_slice]
        exact ⟨rfl, by omega, by omega⟩
      · rw [← hturn]
        exact ⟨rfl, by simpa using hcopied, .inr (by simp only [length_nil]; omega)⟩
    obtain ⟨hslice, hlelen, hstop⟩ := hcopy
    have hrec : readExtents g d len offset (extents g.blockSize size (i + n) rest)
        (i * g.blockSize + e) (copied + bytes.length) =
        slice (flat g.blockSize view) (offset + (copied + bytes.length))
          (len - (copied + bytes.length)) := by
      rcases Nat.eq_or_lt_of_le hlelen with hall | hmore
      · rw [readExtents_done (Nat.le_of_eq hall.symm), hall, Nat.sub_self]
        rfl
      rcases hextent with ⟨_, hfile⟩ | ⟨_, rfl⟩
      · omega
      rw [hnext]
      refine ih (fun r hr => hpos r (.tail _ hr)) (by omega) ?_ hlelen (by omega)
      intro k b hk
      rw [Nat.add_assoc]
      refine hview (n + k) b ?_
      rw [flatMap_cons, List.getElem?_append_right (by simp [run])]
      simpa [run] using hk
    rw [hrec, hslice, length_slice, ← Nat.add_assoc, slice_append]
    congr 1
    omega

/-- A read returns the bytes of the range that are below the size. -/
theorem readRange_spec (hg : Sound g) {fs : Fs} (hmem : fs.failAfter = [])
    (h : FileIs g fs.disk feLba f) (len offset : Nat) :
    readRange g fs feLba len offset = (some (f.read offset len), fs) := by
  have hclamp : (if len > f.size - offset then f.size - offset else len) =
      min len (f.size - offset) := by
    split <;> omega
  unfold readRange ByteFile.read
  simp only [kmalloc_of_nil hmem, h.size, hclamp]
  by_cases hend : offset ≥ f.size
  · simp [hend]
  simp only [if_neg hend, Bool.not_true, Bool.false_eq_true, if_false]
  rcases h.data with hin | ⟨blocks, hin⟩
  · rw [if_pos hin.type, hin.len, if_pos (by omega),
      show min (f.size - offset) (min len (f.size - offset)) = min len (f.size - offset) by omega]
    congr 2
    apply slice_congr
    intro i hi
    rw [Nat.add_assoc]
    exact hin.bytes _ (by omega)
  rw [if_neg (by rw [hin.type]; decide)]
  obtain ⟨hcap, harea⟩ := h.header.cap_eq hg
  have hfits := hin.fits
  rw [readAds_eq (by rw [hin.type]; decide) (by omega), hin.ads]
  have hview : ∀ k b, ((runs blocks).flatMap run)[k]? = some b → b < g.bitmapNbits ∧
      ∀ o < g.blockSize, fs.disk (lba g b) o = f.byte ((0 + k) * g.blockSize + o) := by
    intro k b hk
    rw [flatMap_runs] at hk
    refine ⟨(hin.owned.used b (mem_of_getElem? hk)).1, fun o ho => ?_⟩
    rw [Nat.zero_add]
    exact hin.bytes k b hk o ho
  have hspec : readExtents g fs.disk (min len (f.size - offset)) offset
      (extents g.blockSize f.size 0 (runs blocks)) (0 * g.blockSize) 0 = _ :=
    readExtents_spec hg (fun k o => f.byte (k * g.blockSize + o)) h.small (by omega)
      (runs blocks) (runs_pos blocks) (by rw [Nat.zero_add, total_runs, hin.count]) hview
      (Nat.zero_le _) (by rw [Nat.zero_mul]; exact Nat.zero_le _)
  rw [Nat.zero_mul] at hspec
  rw [hspec]
  refine congrArg (fun bytes => (some bytes, fs)) (slice_congr fun i _ => ?_)
  rw [flat, Nat.div_add_mod', Nat.add_zero]

end

/-! ## Section 3: Blocks of a file -/

section

variable {g : Geometry} {d d' : Disk} {feLba : Nat} {f : ByteFile} {blocks : List Nat}

/-- The list that the descriptors stand for. -/
theorem InBlocks.loadBlocks_eq (hg : Sound g) (hsmall : f.size ≤ maxSize)
    (h : InBlocks g d feLba blocks f) : loadBlocks g (d feLba) = blocks := by
  have htotal : 0 + total (runs blocks) = blockCount g.blockSize f.size := by
    rw [Nat.zero_add, total_runs, h.count]
  have hflat : (extents g.blockSize f.size 0 (runs blocks)).flatMap (extentBlocks g.blockSize) =
      blocks := by
    rw [flatMap_extentBlocks hg.block _ (runs_pos blocks)
      (by rw [Nat.zero_mul]; exact Nat.zero_le _) htotal, flatMap_runs]
  rw [loadBlocks, h.ads]
  refine Eq.trans ?_ hflat
  apply flatMap_congr
  intro e he
  obtain ⟨hpos, hle⟩ := extents_len hg.block f.size _ (runs_pos blocks) htotal e he
  unfold maxSize at hsmall
  rw [adBlocks, Nat.mod_eq_of_lt (show e.1 < 2 ^ 30 by omega),
    Nat.div_eq_of_lt (show e.1 < 2 ^ 30 by omega), if_neg (by omega), extentBlocks, run]
  apply map_congr_left
  intro k hk
  apply u32_of_lt
  -- the block is one of the file's
  have hmem : e.2 + k ∈ blocks := by
    rw [← hflat]
    exact mem_flatMap.mpr ⟨e, he, mem_map_of_mem hk⟩
  have hlt := (h.owned.used _ hmem).1
  have hblocks := hg.blocks
  omega

theorem InBlocks.ownBlocks_eq (hg : Sound g) (hsmall : f.size ≤ maxSize)
    (h : InBlocks g d feLba blocks f) : ownBlocks g (d feLba) = blocks := by
  rw [ownBlocks, if_pos h.type, h.loadBlocks_eq hg hsmall]

theorem Inline.ownBlocks_eq {fe : Bytes} (h : Inline g fe f) : ownBlocks g fe = [] := by
  rw [ownBlocks, if_neg (by rw [h.type]; decide)]

theorem Owned.lba_inj (hg : Sound g) (h : Owned g d feLba blocks) {k j b c : Nat}
    (hk : blocks[k]? = some b) (hj : blocks[j]? = some c) (heq : lba g b = lba g c) : k = j := by
  have hb := (h.used b (mem_of_getElem? hk)).1
  have hc := (h.used c (mem_of_getElem? hj)).1
  have hbc := hg.lba_inj hb hc heq
  rw [hbc, ← hj] at hk
  exact (List.getElem?_inj (List.getElem?_eq_some_iff.mp (hk.trans hj)).1 h.nodup).mp hk

/-- Blocks stay owned when the bitmap does not change. -/
theorem Owned.congr (hg : Sound g) (h : Owned g d feLba blocks)
    (hsame : ∀ l, InBitmap g l → d' l = d l) : Owned g d' feLba blocks := by
  refine ⟨fun b hb => ?_, h.apart, h.nodup⟩
  obtain ⟨hlt, hused⟩ := h.used b hb
  rw [isFree_congr hg hsame hlt]
  exact ⟨hlt, hused⟩

/-- Writing the entry leaves the bitmap as it is. -/
theorem isFree_update (hg : Sound g) (hentry : ¬ InBitmap g feLba) (fe : Bytes) {x : Nat}
    (hx : x < g.bitmapNbits) : isFree g (update d feLba fe) x = isFree g d x := by
  refine isFree_congr hg (fun l hl => update_of_ne ?_ _ _) hx
  rintro rfl
  exact hentry hl

/-- Blocks that were taken from the free ones. -/
theorem Volume.owned (h : Volume g d feLba) {n : Nat}
    (hfree : freeList g d' = (freeList g d).drop n) : Owned g d' feLba ((freeList g d).take n) := by
  have hnodup := nodup_freeList g d
  refine ⟨fun b hb => ?_, fun b hb => ?_, hnodup.sublist (take_sublist _ _)⟩
  · have hmem := mem_freeList.mp (mem_of_mem_take hb)
    refine ⟨hmem.1, ?_⟩
    by_contra hne
    have hmem' : b ∈ freeList g d' := mem_freeList.mpr ⟨hmem.1, Bool.not_eq_false _ ▸ hne⟩
    rw [hfree] at hmem'
    rw [← take_append_drop n (freeList g d)] at hnodup
    exact (disjoint_of_nodup_append hnodup) hb hmem'
  · have hmem := mem_freeList.mp (mem_of_mem_take hb)
    exact h.free b hmem.1 hmem.2

theorem writeBlocks_of_ne (data : Bytes) (size : Nat) (blocks : List Nat) :
    ∀ {bi : Nat} {d : Disk} {l : Nat}, (∀ b ∈ blocks, l ≠ lba g b) →
      writeBlocks g data size bi blocks d l = d l := by
  induction blocks with
  | nil => exact fun _ => rfl
  | cons b rest ih =>
    intro bi d l hne
    rw [writeBlocks, ih fun c hc => hne c (.tail _ hc), update_of_ne (hne b (.head _))]

/-- The blocks hold the data, and zeros behind it. -/
theorem writeBlocks_apply (hg : Sound g) (data : Bytes) (size : Nat) (blocks : List Nat) :
    ∀ {bi : Nat} {d : Disk} {k b : Nat}, (∀ c ∈ blocks, c < g.bitmapNbits) → blocks.Nodup →
      blocks[k]? = some b → ∀ o, writeBlocks g data size bi blocks d (lba g b) o =
        if (bi + k) * g.blockSize + o < size then data ((bi + k) * g.blockSize + o) else 0 := by
  induction blocks with
  | nil =>
    intro bi d k b _ _ hk
    exact nomatch hk
  | cons c rest ih =>
    intro bi d k b hlt hnodup hk o
    obtain ⟨hnot, hrest⟩ := nodup_cons.mp hnodup
    have hlt' : ∀ c ∈ rest, c < g.bitmapNbits := fun x hx => hlt x (.tail _ hx)
    rw [writeBlocks]
    cases k with
    | zero =>
      obtain rfl : c = b := Option.some.inj hk
      rw [writeBlocks_of_ne, update_self, Nat.add_zero]
      intro x hx heq
      obtain rfl := hg.lba_inj (hlt _ (.head _)) (hlt' x hx) heq
      exact hnot hx
    | succ k => rw [ih hlt' hrest hk o, show bi + 1 + k = bi + (k + 1) by omega]

/-- Blocks that hold the bytes of a file, and an entry with their descriptors, make up the
    file. -/
theorem fileIs_extentsFe (hg : Sound g) {fe : Bytes} (hfit : HeaderFits g fe)
    (hsmall : f.size ≤ maxSize) (hcount : blocks.length = blockCount g.blockSize f.size)
    (hruns : (runs blocks).length ≤ inlineCap g fe / 8) (howned : Owned g d feLba blocks)
    (hentry : ¬ InBitmap g feLba) (hbytes : HoldBytes g d blocks f.byte) (n : Nat) :
    let d' := update d feLba
      (extentsFe g fe feLba f.size n (extents g.blockSize f.size 0 (runs blocks)))
    FileIs g d' feLba f ∧ ownBlocks g (d' feLba) = blocks := by
  have htotal : 0 + total (runs blocks) = blockCount g.blockSize f.size := by
    rw [Nat.zero_add, total_runs, hcount]
  have hmax : maxSize < 2 ^ 32 := by decide
  have hraw : ∀ ad ∈ extents g.blockSize f.size 0 (runs blocks), ad.1 < 2 ^ 32 ∧ ad.2 < 2 ^ 32 := by
    intro e he
    obtain ⟨hpos, hle⟩ := extents_len hg.block f.size _ (runs_pos blocks) htotal e he
    have hmem : e.2 ∈ blocks := by
      rw [← flatMap_runs blocks, ← flatMap_extentBlocks hg.block _ (runs_pos blocks)
        (by rw [Nat.zero_mul]; exact Nat.zero_le _) htotal]
      refine mem_flatMap.mpr ⟨e, he, mem_map.mpr ⟨0, mem_range.mpr ?_, rfl⟩⟩
      exact (lt_blockCount_iff hg.block).mpr (by rw [Nat.zero_mul]; exact hpos)
    have hlt := (howned.used _ hmem).1
    have hblocks := hg.blocks
    omega
  have hsize : f.size < 2 ^ 64 := by omega
  generalize hfe' : extentsFe g fe feLba f.size n (extents g.blockSize f.size 0 (runs blocks)) = fe'
  obtain ⟨hsame, htype, hinfo, hlad, hads⟩ := extentsFe_spec hg hfit
    (by rw [length_extents]; omega) hraw hsize hfe'.symm
  rw [length_extents] at hlad
  have hin : InBlocks g (update d feLba fe') feLba blocks f := by
    refine ⟨?_, hcount, ?_, ?_, ?_, howned.congr hg fun l hl => ?_, fun k b hk o ho => ?_⟩
    · rw [update_self]
      exact htype
    · rw [update_self]
      exact hads
    · rw [update_self]
      exact hlad
    · rw [update_self, hsame.cap]
      omega
    · apply update_of_ne
      rintro rfl
      exact hentry hl
    · rw [update_of_ne (howned.apart b (mem_of_getElem? hk)).1]
      exact hbytes k b hk o ho
  refine ⟨⟨?_, ?_, hsmall, .inr ⟨blocks, hin⟩⟩, hin.ownBlocks_eq hg hsmall⟩
  · rw [update_self]
    exact hsame.fits hfit
  · rw [update_self]
    exact hinfo

/-- An entry with the bytes in it is the file. -/
theorem fileIs_inlineFe (hg : Sound g) {fe : Bytes} (hfit : HeaderFits g fe)
    (hsmall : f.size ≤ maxSize) (hcap : f.size ≤ inlineCap g fe) {data : Bytes}
    (hdata : ∀ i < f.size, data i = f.byte i) :
    let d' := update d feLba (inlineFe g fe feLba data f.size)
    FileIs g d' feLba f ∧ ownBlocks g (d' feLba) = [] := by
  generalize hfe' : inlineFe g fe feLba data f.size = fe'
  obtain ⟨hsame, htype, hinfo, hlad, hbytes⟩ := inlineFe_spec hg hfit hcap hfe'.symm
  have hin : Inline g fe' f := by
    refine ⟨htype, hlad, by rw [hsame.cap]; exact hcap, fun i hi => ?_⟩
    rw [hsame.area, hbytes i hi, hdata i hi]
  simp only [update_self]
  refine ⟨⟨?_, ?_, hsmall, .inl ?_⟩, hin.ownBlocks_eq⟩
  · rw [update_self]
    exact hsame.fits hfit
  · rw [update_self]
    exact hinfo
  · rw [update_self]
    exact hin

/-! ## Section 4: Writing an entry with its data -/

/-- There are free blocks for `size` bytes, and the entry has room for their descriptors. -/
def Fits (g : Geometry) (fe : Bytes) (free : List Nat) (size : Nat) : Prop :=
  inlineCap g fe < size → blockCount g.blockSize size ≤ free.length ∧
    (runs (free.take (blockCount g.blockSize size))).length ≤ inlineCap g fe / 8

/-- What an entry that is written anew changes: the blocks that it lists were free, and only they,
    the entry and the bitmap are written. -/
structure Placed (g : Geometry) (d d' : Disk) (feLba : Nat) : Prop where
  free : ∀ x < g.bitmapNbits,
    (isFree g d' x = true ↔ isFree g d x = true ∧ x ∉ ownBlocks g (d' feLba))
  own  : ∀ x ∈ ownBlocks g (d' feLba), isFree g d x = true
  data : ∀ l, ¬ InBitmap g l → l ≠ feLba → (∀ x ∈ ownBlocks g (d' feLba), l ≠ lba g x) →
    d' l = d l

/-- The data that is written; in a directory the tags of the identifiers are made anew. -/
def stored (g : Geometry) (isDir : Bool) (loc : Nat → Nat) (data : Bytes) (size : Nat) : Bytes :=
  if isDir then refinalizeFids g loc size size 0 data else data

/-- The blocks that were taken from the list of free ones are those that are no longer free. -/
theorem free_iff_of_drop {n : Nat} (hfree : freeList g d' = (freeList g d).drop n) {x : Nat}
    (hx : x < g.bitmapNbits) :
    isFree g d' x = true ↔ isFree g d x = true ∧ x ∉ (freeList g d).take n := by
  have hnodup := nodup_freeList g d
  have hmem : ∀ d, isFree g d x = true ↔ x ∈ freeList g d := fun d =>
    ⟨fun h => mem_freeList.mpr ⟨hx, h⟩, fun h => (mem_freeList.mp h).2⟩
  rw [hmem d, hmem d', hfree]
  generalize freeList g d = l at hnodup
  rw [← take_append_drop n l] at hnodup
  have hdisj := disjoint_of_nodup_append hnodup
  constructor
  · intro hdrop
    exact ⟨mem_of_mem_drop hdrop, fun htake => hdisj htake hdrop⟩
  · rintro ⟨hl, hnot⟩
    rw [← take_append_drop n l] at hl
    exact (mem_append.mp hl).resolve_left hnot

theorem writeFeData_spec (hg : Sound g) {fs : Fs} (hmem : fs.failAfter = []) {fe : Bytes}
    (hfit : HeaderFits g fe) (hvol : Volume g fs.disk feLba) {size : Nat} (hsmall : size ≤ maxSize)
    (hroom : Fits g fe (freeList g fs.disk) size) (data : Bytes) (isDir : Bool) :
    ∃ d' loc, writeFeData g fs fe feLba data size isDir = (0, { fs with disk := d' }) ∧
      FileIs g d' feLba (.ofBytes size (stored g isDir loc data size)) ∧
      Placed g fs.disk d' feLba ∧ d' feLba 27 = fe 27 := by
  unfold writeFeData
  by_cases hcap : size ≤ inlineCap g fe
  · rw [if_pos hcap]
    have hentry := @fileIs_inlineFe g fs.disk feLba (.ofBytes size
      (stored g isDir (fun _ => sub32 feLba g.partStart) data size)) hg fe hfit hsmall hcap _
      fun i hi => (ByteFile.ofBytes_byte hi).symm
    have hown : ∀ x, x ∉ ownBlocks g (update fs.disk feLba (inlineFe g fe feLba
        (stored g isDir (fun _ => sub32 feLba g.partStart) data size) size) feLba) := by
      intro x hx
      cases (hentry.2 ▸ hx : x ∈ [])
    refine ⟨_, _, rfl, hentry.1, ⟨fun x hx => ?_, fun x hx => absurd hx (hown x),
      fun l _ hne _ => update_of_ne hne _ _⟩, ?_⟩
    · rw [isFree_update hg hvol.entry _ hx]
      exact ⟨fun hfree => ⟨hfree, hown x⟩, fun hboth => hboth.1⟩
    · rw [update_self, inlineFe_type hg hfit]
  rw [if_neg hcap]
  obtain ⟨henough, hruns⟩ := hroom (Nat.not_le.mp hcap)
  obtain ⟨d1, halloc, hfree, hsame⟩ := allocBlocks_spec hg (blockCount g.blockSize size) hmem
  have howned := hvol.owned hfree
  have hbits := fun x hx => @free_iff_of_drop g fs.disk d1 _ hfree x hx
  have hold : ∀ x ∈ (freeList g fs.disk).take (blockCount g.blockSize size),
      isFree g fs.disk x = true := fun x hx => (mem_freeList.mp (mem_of_mem_take hx)).2
  have hcount : ((freeList g fs.disk).take (blockCount g.blockSize size)).length =
      blockCount g.blockSize size := length_take_of_le henough
  unfold writeFeBlocks
  rw [if_neg (by omega)]
  simp only [kmalloc_of_nil hmem, halloc, length_extents, Bool.not_true, Bool.false_eq_true,
    if_false]
  generalize (freeList g fs.disk).take (blockCount g.blockSize size) = blocks
    at howned hcount hruns hbits hold
  rw [if_neg (by omega), if_neg (by omega)]
  obtain ⟨data', hdata'⟩ : ∃ x, x =
    stored g isDir (fun off => blocks.getD (off / g.blockSize) 0) data size := ⟨_, rfl⟩
  rw [show (if isDir = true then refinalizeFids g (fun off => blocks.getD (off / g.blockSize) 0)
    size size 0 data else data) = data' from hdata'.symm]
  -- the data is written to sectors outside the bitmap
  have hbitmap : ∀ l, InBitmap g l → writeBlocks g data' size 0 blocks d1 l = d1 l := by
    intro l hl
    apply writeBlocks_of_ne
    rintro b hb rfl
    exact (howned.apart b hb).2 hl
  have hhold : HoldBytes g (writeBlocks g data' size 0 blocks d1) blocks
      (ByteFile.ofBytes size data').byte := by
    intro k b hk o ho
    rw [writeBlocks_apply hg data' size blocks (fun c hc => (howned.used c hc).1) howned.nodup hk,
      Nat.zero_add]
    rfl
  obtain ⟨hfile, hown⟩ := @fileIs_extentsFe g _ feLba (.ofBytes size data') blocks hg fe hfit
    hsmall hcount hruns (howned.congr hg hbitmap) hvol.entry hhold (blockCount g.blockSize size)
  obtain ⟨d', hd'⟩ : ∃ x, x = update (writeBlocks g data' size 0 blocks d1) feLba
    (extentsFe g fe feLba size (blockCount g.blockSize size)
      (extents g.blockSize size 0 (runs blocks))) := ⟨_, rfl⟩
  have hother : ∀ l, l ≠ feLba → d' l = writeBlocks g data' size 0 blocks d1 l := by
    intro l hne
    rw [hd', update_of_ne hne]
  rw [← hd']
  refine ⟨d', fun off => blocks.getD (off / g.blockSize) 0, rfl, ?_, ?_,
    by rw [hd', update_self, extentsFe_type hg hfit]⟩
  · rw [hd', ← hdata']
    exact hfile
  have hown' : ownBlocks g (d' feLba) = blocks := by
    rw [hd']
    exact hown
  refine ⟨fun x hx => ?_, fun x hx => ?_, fun l hl hne hnot => ?_⟩
  · rw [hown', ← hbits x hx, hd', isFree_update hg hvol.entry _ hx, isFree_congr hg hbitmap hx]
  · rw [hown'] at hx
    exact hold x hx
  · rw [hown'] at hnot
    rw [hother l hne, writeBlocks_of_ne _ _ _ hnot, hsame l hl]

/-- The free blocks after those of the entry are returned. -/
def freeAfter (g : Geometry) (d : Disk) (fe : Bytes) : List Nat :=
  (List.range g.bitmapNbits).filter fun b => isFree g d b || decide (b ∈ ownBlocks g fe)

theorem FileIs.owned (hg : Sound g) (h : FileIs g d feLba f) :
    Owned g d feLba (ownBlocks g (d feLba)) := by
  unfold ownBlocks
  rcases h.data with hin | ⟨blocks, hin⟩
  · rw [if_neg (by rw [hin.type]; decide)]
    exact ⟨nofun, nofun, nodup_nil⟩
  · rw [if_pos hin.type, hin.loadBlocks_eq hg h.small]
    exact hin.owned

theorem freeFeExtents_spec (hg : Sound g) {fs : Fs} (hmem : fs.failAfter = [])
    (h : FileIs g fs.disk feLba f) :
    ∃ d', freeFeExtents g fs (fs.disk feLba) = { fs with disk := d' } ∧
      (∀ x < g.bitmapNbits, isFree g d' x =
        (isFree g fs.disk x || decide (x ∈ ownBlocks g (fs.disk feLba)))) ∧
      SameData g fs.disk d' := by
  have howned := h.owned hg
  have heq : freeFeExtents g fs (fs.disk feLba) =
      freeBlocks g fs (ownBlocks g (fs.disk feLba)) := by
    unfold freeFeExtents ownBlocks
    by_cases htype : adType (fs.disk feLba) = 0
    · rw [if_neg (fun hne => hne htype), if_pos htype]
    · rw [if_pos htype, if_neg htype]
      rfl
  obtain ⟨d', hfreed, hfree, hsame⟩ := freeBlocks_spec hg (ownBlocks g (fs.disk feLba)) hmem
    fun b hb => (howned.used b hb).1
  exact ⟨d', heq.trans hfreed, hfree, hsame⟩

/-- What a change of an entry changes: the blocks that it lists are old ones or were free, and only
    they, the entry and the bitmap are written. -/
structure Changed (g : Geometry) (d d' : Disk) (feLba : Nat) : Prop where
  free : ∀ x < g.bitmapNbits, (isFree g d' x = true ↔
    (isFree g d x = true ∨ x ∈ ownBlocks g (d feLba)) ∧ x ∉ ownBlocks g (d' feLba))
  own  : ∀ x ∈ ownBlocks g (d' feLba), isFree g d x = true ∨ x ∈ ownBlocks g (d feLba)
  data : ∀ l, ¬ InBitmap g l → l ≠ feLba → (∀ x ∈ ownBlocks g (d' feLba), l ≠ lba g x) →
    d' l = d l
  type : d' feLba 27 = d feLba 27

theorem Changed.volume (hg : Sound g) (h : FileIs g d feLba f) (hvol : Volume g d feLba)
    (hchange : Changed g d d' feLba) : Volume g d' feLba := by
  refine ⟨hvol.entry, fun b hb hfree => ?_⟩
  rcases ((hchange.free b hb).mp hfree).1 with hold | hown
  · exact hvol.free b hb hold
  · exact (h.owned hg).apart b hown

/-- The blocks of the entry are returned and it is written anew. -/
theorem replaceData_spec (hg : Sound g) {fs : Fs} (hmem : fs.failAfter = [])
    (h : FileIs g fs.disk feLba f) (hvol : Volume g fs.disk feLba) {size : Nat}
    (hsmall : size ≤ maxSize)
    (hroom : Fits g (fs.disk feLba) (freeAfter g fs.disk (fs.disk feLba)) size) (data : Bytes)
    (isDir : Bool) :
    ∃ d' loc, writeFeData g (freeFeExtents g fs (fs.disk feLba)) (fs.disk feLba) feLba data size
        isDir = (0, { fs with disk := d' }) ∧
      FileIs g d' feLba (.ofBytes size (stored g isDir loc data size)) ∧
      Changed g fs.disk d' feLba := by
  have howned := h.owned hg
  obtain ⟨d1, hfreed, hfree, hsame⟩ := freeFeExtents_spec hg hmem h
  have hfree1 : ∀ x < g.bitmapNbits, (isFree g d1 x = true ↔
      isFree g fs.disk x = true ∨ x ∈ ownBlocks g (fs.disk feLba)) := by
    intro x hx
    rw [hfree x hx, Bool.or_eq_true, decide_eq_true_iff]
  have hvol1 : Volume g d1 feLba := by
    refine ⟨hvol.entry, fun b hb hfree' => ?_⟩
    rcases (hfree1 b hb).mp hfree' with hold | hown
    · exact hvol.free b hb hold
    · exact howned.apart b hown
  have hroom1 : Fits g (fs.disk feLba) (freeList g d1) size := by
    rw [freeList_congr hfree]
    exact hroom
  obtain ⟨d', loc, hw, hfile, hplaced, htype⟩ := @writeFeData_spec g feLba hg
    { fs with disk := d1 } hmem (fs.disk feLba) h.header hvol1 size hsmall hroom1 data isDir
  have hlt : ∀ x ∈ ownBlocks g (d' feLba), x < g.bitmapNbits := fun x hx =>
    ((hfile.owned hg).used x hx).1
  refine ⟨d', loc, by rw [hfreed]; exact hw, hfile, fun x hx => ?_, fun x hx => ?_,
    fun l hl hne hnot => ?_, htype⟩
  · rw [hplaced.free x hx, hfree1 x hx]
  · exact (hfree1 x (hlt x hx)).mp (hplaced.own x hx)
  · exact (hplaced.data l hl hne hnot).trans (hsame l hl)

/-- Reading the old bytes, changing them and writing the entry anew. -/
theorem rewriteFile_spec (hg : Sound g) {fs : Fs} (hmem : fs.failAfter = [])
    (h : FileIs g fs.disk feLba f) (hvol : Volume g fs.disk feLba) {f' : ByteFile}
    {data : List UInt8} {offset : Nat} (hsmall : f'.size ≤ maxSize)
    (hbytes : ∀ i < f'.size, f'.byte i = overwrite f.byte offset data i)
    (hroom : Fits g (fs.disk feLba) (freeAfter g fs.disk (fs.disk feLba)) f'.size) :
    ∃ d', rewriteFile g fs feLba (fs.disk feLba) data offset f'.size =
        (0, { fs with disk := d' }) ∧ FileIs g d' feLba f' ∧ Changed g fs.disk d' feLba := by
  have hkeep : (if infoLen (fs.disk feLba) < f'.size then infoLen (fs.disk feLba) else f'.size) =
      min f.size f'.size := by
    rw [h.size]
    split <;> omega
  have hread : (if min f.size f'.size > 0 then readRange g fs feLba (min f.size f'.size) 0
      else (some [], fs)) = (some (f.read 0 (min f.size f'.size)), fs) := by
    split
    · exact readRange_spec hg hmem h _ _
    · next hzero =>
      rw [show min f.size f'.size = 0 by omega]
      simp [ByteFile.read]
  unfold rewriteFile
  simp only [kmalloc_of_nil hmem, hkeep, hread, Bool.not_true, Bool.false_eq_true, if_false,
    Option.getD_some]
  obtain ⟨buf, hbuf⟩ : ∃ x, x = overwrite (overwrite (fun _ => 0) 0
    (f.read 0 (min f.size f'.size))) offset data := ⟨_, rfl⟩
  have hf' : ByteFile.ofBytes f'.size buf = f' := by
    refine ByteFile.ofBytes_eq fun i hi => ?_
    rw [hbytes i hi, hbuf]
    by_cases hmemi : offset ≤ i ∧ i < offset + data.length
    · rw [overwrite_of_mem hmemi.1 hmemi.2, overwrite_of_mem hmemi.1 hmemi.2]
    have hout : i < offset ∨ offset + data.length ≤ i := by omega
    rw [overwrite_of_not_mem hout, overwrite_of_not_mem hout]
    -- a byte that is kept, or a zero behind the old end
    have hlen : (f.read 0 (min f.size f'.size)).length = min f.size f'.size := by
      rw [ByteFile.read, length_slice]
      omega
    by_cases hold : i < f.size
    · rw [overwrite_of_mem (Nat.zero_le _) (by omega), Nat.sub_zero, ByteFile.read,
        getD_slice (by omega), Nat.zero_add]
    · rw [overwrite_of_not_mem (.inr (by omega)), f.zero_after i (Nat.not_lt.mp hold)]
  obtain ⟨d', loc, hw, hfile, hchange⟩ := replaceData_spec hg hmem h hvol hsmall hroom buf false
  rw [← hbuf]
  refine ⟨d', hw, ?_, hchange⟩
  rw [← hf']
  exact hfile

end

end Cervus.Udf
