import Cervus.Framework.ByteFile
import Cervus.Framework.System

/-! # Files of the memory file system

    A file of `ramfs` is a table of chunks of one page and a size. Chunks are allocated
    zeroed, up to the end of a write, and freed when a truncation leaves them unused.

    A truncation keeps the last chunk as it is. So a file is the byte array it stands for
    (`Rep`) as long as truncations cut off, of the last chunk they keep, nothing but zeros
    (`ramfs_is_byte_array`). Near the end of the address range the number of chunks for a size
    is computed as zero: a truncation then frees them all, and a write stores outside the
    table. -/

namespace Cervus.Ramfs

open Option

/-! ## Section 1: The operations -/

/-- `RAMFS_CHUNK_SIZE` -/
def chunkSize : Nat := 4096

/-- `RAMFS_MAX_CHUNKS` -/
def maxChunks : Nat := 16 * 1024 * 1024

def efbig : Int := 27

/-- The fields of a `ramfs_node_t` that a file uses, and the size of its vnode. An entry of
    the table is `none` when it is `NULL`. -/
structure RamfsFile where
  chunks     : Nat → Option Bytes
  chunkCount : Nat
  chunkCap   : Nat
  size       : Nat

/-- `kzalloc` -/
def RamfsFile.empty : RamfsFile := ⟨fun _ => none, 0, 0, 0⟩

/-- `while (newcap < need_chunks) newcap *= 2` -/
def growCap (need : Nat) : Nat → Nat → Nat
  | 0, newcap => newcap
  | fuel + 1, newcap => if newcap < need then growCap need fuel (newcap * 2) else newcap

/-- The first part of `ramfs_ensure_chunks`: a table that is too short is replaced. -/
def growTable (rn : RamfsFile) (need : Nat) : RamfsFile :=
  if need > rn.chunkCap then
    { rn with
      chunks := fun i => if i < rn.chunkCount then rn.chunks i else none
      chunkCap := growCap need need (if rn.chunkCap ≠ 0 then rn.chunkCap * 2 else 8) }
  else rn

/-- `ramfs_ensure_chunks` -/
def ensureChunks (rn : RamfsFile) (need : Nat) : Int × RamfsFile :=
  if need ≤ rn.chunkCount then (0, rn)
  else if need > maxChunks then (-efbig, rn)
  else
    let rn := growTable rn need
    (0, { rn with
      chunks := fun i =>
        -- `pmm_alloc_zero`
        if rn.chunkCount ≤ i ∧ i < need then some fun _ => 0 else rn.chunks i
      chunkCount := need })

/-- A turn of the loop of `ramfs_file_read`. -/
def readChunk (rn : RamfsFile) (ci off n : Nat) : List UInt8 :=
  match (if ci < rn.chunkCount then rn.chunks ci else none) with
  | some chunk => slice chunk off n
  | none => List.replicate n 0

/-- `ramfs_file_read`: the bytes it copies. It returns how many they are. -/
def fileRead (rn : RamfsFile) (len offset : Nat) : List UInt8 :=
  if offset ≥ rn.size then []
  else
    let avail := rn.size - offset
    let len := if len > avail then avail else len
    if len = 0 then [] else gather chunkSize (readChunk rn) len offset len

/-- A turn of the loop of `ramfs_file_write`. It stores through an entry of the table: there is
    no result when that is `NULL` or past the table. -/
def writeChunk (ci off : Nat) (data : List UInt8) (rn : RamfsFile) : Option RamfsFile :=
  if ci < rn.chunkCap then
    (rn.chunks ci).map fun chunk =>
      { rn with chunks := Function.update rn.chunks ci (some (overwrite chunk off data)) }
  else none

/-- `ramfs_file_write` -/
def fileWrite (rn : RamfsFile) (data : List UInt8) (offset : Nat) : Option (Int × RamfsFile) :=
  if data.length = 0 then some (0, rn)
  else
    let last := (offset + data.length) % 2 ^ 64
    if last < offset then some (-efbig, rn)
    else
      let need := (last + chunkSize - 1) % 2 ^ 64 / chunkSize
      match ensureChunks rn need with
      | (r, rn) =>
        if r < 0 then some (r, rn)
        else
          (scatter chunkSize writeChunk data.length offset data rn).map fun rn =>
            (data.length, { rn with size := if last > rn.size then last else rn.size })

/-- `ramfs_file_truncate` -/
def fileTruncate (rn : RamfsFile) (newSize : Nat) : RamfsFile :=
  if newSize = 0 then
    -- `ramfs_free_chunks`
    RamfsFile.empty
  else if newSize < rn.size then
    let keep := (newSize + chunkSize - 1) % 2 ^ 64 / chunkSize
    { rn with
      chunks := fun i => if keep ≤ i ∧ i < rn.chunkCount then none else rn.chunks i
      chunkCount := if keep < rn.chunkCount then keep else rn.chunkCount
      size := newSize }
  else rn

/-- `vfs_ftruncate` and `vfs_truncate`, which set the size that they were asked for. -/
def vfsFtruncate (rn : RamfsFile) (newSize : Nat) : RamfsFile :=
  { fileTruncate rn newSize with size := newSize }

/-! ## Section 2: Runs -/

inductive Op where
  | write (data : List UInt8) (offset : Nat)
  | truncate (newSize : Nat)

/-- A file, and beside it the byte array that it stands for. A write that reports an error, and
    one of no bytes, writes nothing. -/
inductive Step : RamfsFile × ByteFile → Op → RamfsFile × ByteFile → Prop where
  | written {rn rn' : RamfsFile} {f : ByteFile} {data : List UInt8} {offset : Nat} {r : Int} :
      fileWrite rn data offset = some (r, rn') → 0 < r →
      Step (rn, f) (.write data offset) (rn', f.write offset data)
  | refused {rn rn' : RamfsFile} {f : ByteFile} {data : List UInt8} {offset : Nat} {r : Int} :
      fileWrite rn data offset = some (r, rn') → r ≤ 0 →
      Step (rn, f) (.write data offset) (rn', f)
  | truncated {rn : RamfsFile} {f : ByteFile} {newSize : Nat} :
      Step (rn, f) (.truncate newSize) (vfsFtruncate rn newSize, f.truncate newSize)

/-- Every read returns what it should, and the size is right. -/
def IsByteArray (s : RamfsFile × ByteFile) : Prop :=
  s.1.size = s.2.size ∧ ∀ len offset, fileRead s.1 len offset = s.2.read offset len

/-- Where the chunks end that a truncation to this size keeps. -/
def chunkEnd (size : Nat) : Nat := (size + chunkSize - 1) % 2 ^ 64 / chunkSize * chunkSize

/-- What lies between the size of a shorter file and the end of the chunks it keeps is zero.
    The end of a write is not in the last page of the address range. -/
def Orderly (s : RamfsFile × ByteFile) : Op → Prop
  | .write data offset => offset + data.length + chunkSize ≤ 2 ^ 64 ∨
      2 ^ 64 ≤ offset + data.length
  | .truncate newSize => newSize < s.2.size → ∀ i, min newSize (chunkEnd newSize) ≤ i →
      i < max newSize (chunkEnd newSize) → s.2.byte i = 0

/-! ## Section 3: A file and its byte array -/

/-- The chunks as blocks of bytes. -/
def RamfsFile.view (rn : RamfsFile) (ci : Nat) : Bytes := (rn.chunks ci).getD fun _ => 0

/-- The chunks in use are the first `chunk_count` entries of the table. -/
structure Table (rn : RamfsFile) : Prop where
  used  : ∀ ci, (rn.chunks ci).isSome ↔ ci < rn.chunkCount
  cap   : rn.chunkCount ≤ rn.chunkCap
  count : rn.chunkCount ≤ maxChunks

/-- The file stands for the byte array. -/
structure Rep (rn : RamfsFile) (f : ByteFile) : Prop extends Table rn where
  size  : rn.size = f.size
  bytes : flat chunkSize rn.view = f.byte

theorem chunkSize_pos : 0 < chunkSize := by decide

/-- The number of chunks for `n` bytes is the least that covers them. -/
theorem chunks_le_iff {n c : Nat} : (n + chunkSize - 1) / chunkSize ≤ c ↔ n ≤ c * chunkSize := by
  unfold chunkSize
  omega

variable {rn : RamfsFile} {ci offset newSize : Nat} {f : ByteFile} {data : List UInt8}

theorem Table.view_of_unused (h : Table rn) (hci : rn.chunkCount ≤ ci) :
    rn.view ci = fun _ => 0 := by
  have hnone : rn.chunks ci = none := by
    rw [← not_isSome_iff_eq_none, h.used]
    exact Nat.not_lt.mpr hci
  rw [RamfsFile.view, hnone]
  rfl

theorem readChunk_eq (h : Table rn) (ci off n : Nat) :
    readChunk rn ci off n = slice (rn.view ci) off n := by
  unfold readChunk
  by_cases hci : ci < rn.chunkCount
  · rw [if_pos hci]
    obtain ⟨chunk, hchunk⟩ := isSome_iff_exists.mp ((h.used ci).mpr hci)
    simp only [RamfsFile.view, hchunk]
    rfl
  · rw [if_neg hci, h.view_of_unused (Nat.le_of_not_lt hci)]
    rw [slice, List.map_const', List.length_range]

theorem Rep.isByteArray (h : Rep rn f) : IsByteArray (rn, f) := by
  refine ⟨h.size, fun len offset => ?_⟩
  simp only [fileRead, ByteFile.read, h.size]
  split
  · next hoff => rw [Nat.sub_eq_zero_of_le hoff, Nat.min_zero, slice_zero]
  have hmin : (if len > f.size - offset then f.size - offset else len) =
      min len (f.size - offset) := by
    split <;> omega
  rw [hmin]
  split
  · next hzero => rw [hzero, slice_zero]
  · rw [gather_eq_slice chunkSize_pos rn.view (Nat.le_refl _), h.bytes]
    intro ci off n _ _
    exact readChunk_eq h.toTable ci off n

/-! ## Section 4: The operations keep the representation -/

theorem le_growCap {need : Nat} (fuel : Nat) :
    ∀ cap, need ≤ fuel + cap → 0 < cap → need ≤ growCap need fuel cap := by
  induction fuel with
  | zero =>
    intro cap h _
    rw [growCap]
    omega
  | succ fuel ih =>
    intro cap h hcap
    rw [growCap]
    split
    · exact ih (cap * 2) (by omega) (by omega)
    · omega

theorem growTable_spec (h : Table rn) (need : Nat) :
    (growTable rn need).chunks = rn.chunks ∧ (growTable rn need).chunkCount = rn.chunkCount ∧
    need ≤ (growTable rn need).chunkCap ∧ (growTable rn need).size = rn.size := by
  unfold growTable
  split
  · refine ⟨?_, rfl, le_growCap _ _ (by omega) (by split <;> omega), rfl⟩
    funext i
    simp only
    split
    · rfl
    next hi =>
    have hnone : ¬ (rn.chunks i).isSome := by
      rw [h.used]
      exact hi
    exact (not_isSome_iff_eq_none.mp hnone).symm
  · exact ⟨rfl, rfl, Nat.le_of_not_lt ‹_›, rfl⟩

/-- It fails and changes nothing, or there are enough chunks, the new ones zero. -/
theorem ensureChunks_spec (h : Table rn) (need : Nat) : ensureChunks rn need = (-efbig, rn) ∨
    ∃ rn', ensureChunks rn need = (0, rn') ∧ Table rn' ∧ need ≤ rn'.chunkCount ∧
      rn.chunkCount ≤ rn'.chunkCount ∧ rn'.view = rn.view ∧ rn'.size = rn.size := by
  unfold ensureChunks
  by_cases hhave : need ≤ rn.chunkCount
  · rw [if_pos hhave]
    exact .inr ⟨rn, rfl, h, hhave, Nat.le_refl _, rfl, rfl⟩
  rw [if_neg hhave]
  by_cases hmax : need > maxChunks
  · rw [if_pos hmax]
    exact .inl rfl
  rw [if_neg hmax]
  obtain ⟨hchunks, hcount, hcap, hsize⟩ := growTable_spec h need
  refine .inr ⟨_, rfl, ⟨fun ci => ?_, hcap, Nat.le_of_not_lt hmax⟩, Nat.le_refl _,
    Nat.le_of_not_le hhave, ?_, hsize⟩
  · simp only [hcount, hchunks]
    split
    · next hnew => exact iff_of_true rfl hnew.2
    · rw [h.used]
      omega
  funext ci
  simp only [RamfsFile.view, hcount, hchunks]
  split
  · next hnew => exact (h.view_of_unused hnew.1).symm
  · rfl

/-- A turn of the write loop, for a chunk that there is. -/
theorem writeChunk_spec (h : Table rn) (hci : ci < rn.chunkCount) (off : Nat) (data : List UInt8) :
    ∃ rn', writeChunk ci off data rn = some rn' ∧ Table rn' ∧ rn'.chunkCount = rn.chunkCount ∧
      rn'.size = rn.size ∧
      rn'.view = Function.update rn.view ci (overwrite (rn.view ci) off data) := by
  obtain ⟨chunk, hchunk⟩ := isSome_iff_exists.mp ((h.used ci).mpr hci)
  have hcap := h.cap
  unfold writeChunk
  rw [if_pos (by omega), hchunk]
  refine ⟨_, rfl, ⟨fun ck => ?_, h.cap, h.count⟩, rfl, rfl, ?_⟩
  · by_cases heq : ck = ci
    · subst heq
      simp only [Function.update_self]
      exact iff_of_true rfl hci
    · simp only [Function.update_of_ne heq]
      exact h.used ck
  funext ck
  by_cases heq : ck = ci
  · subst heq
    simp only [RamfsFile.view, Function.update_self, hchunk]
    rfl
  · simp only [RamfsFile.view, Function.update_of_ne heq]

/-- A write is refused, or it does what it should. -/
theorem fileWrite_spec (h : Rep rn f) (hlen : data.length < 2 ^ 64) (hoff : offset < 2 ^ 64)
    (hend : offset + data.length + chunkSize ≤ 2 ^ 64 ∨ 2 ^ 64 ≤ offset + data.length) :
    ∃ r rn', fileWrite rn data offset = some (r, rn') ∧
      (0 < r → Rep rn' (f.write offset data)) ∧ (r ≤ 0 → Rep rn' f) := by
  unfold fileWrite
  by_cases hnil : data.length = 0
  · rw [if_pos hnil]
    exact ⟨0, rn, rfl, fun hr => absurd hr (by decide), fun _ => h⟩
  rw [if_neg hnil]
  have hsize : chunkSize = 4096 := rfl
  rcases hend with hend | hwrap
  · -- the arithmetic of the end does not wrap
    have hmod : (offset + data.length) % 2 ^ 64 = offset + data.length :=
      Nat.mod_eq_of_lt (by omega)
    have hmod' : (offset + data.length + chunkSize - 1) % 2 ^ 64 =
        offset + data.length + chunkSize - 1 := Nat.mod_eq_of_lt (by omega)
    simp only [hmod, hmod']
    rw [if_neg (by omega)]
    rcases ensureChunks_spec h.toTable ((offset + data.length + chunkSize - 1) / chunkSize) with
      hfail | ⟨rn1, hens, htable, hneed, hmore, hview, hsz⟩
    · rw [hfail]
      exact ⟨-efbig, rn, rfl, fun hr => absurd hr (by decide), fun _ => h⟩
    rw [hens]
    have hscatter : ∃ rn2, scatter chunkSize writeChunk data.length offset data rn1 = some rn2 ∧
        (Table rn2 ∧ rn2.chunkCount = rn1.chunkCount ∧ rn2.size = rn1.size) ∧
        flat chunkSize rn2.view = overwrite (flat chunkSize rn1.view) offset data := by
      refine scatter_spec chunkSize_pos (fun _ => RamfsFile.view)
        (fun _ s => Table s ∧ s.chunkCount = rn1.chunkCount ∧ s.size = rn1.size) ?_
        (Nat.le_refl _) rfl ⟨htable, rfl, rfl⟩
      intro pos piece s ⟨hs, hcount, hsz⟩ hpos hfit hlast _
      have hci : pos / chunkSize < s.chunkCount := by
        rw [hcount, Nat.div_lt_iff_lt_mul chunkSize_pos]
        have hcover := chunks_le_iff.mp hneed
        omega
      obtain ⟨s', hs', htab, hc, hz, hv⟩ := writeChunk_spec hs hci (pos % chunkSize) piece
      exact ⟨s', hs', ⟨htab, hc.trans hcount, hz.trans hsz⟩, hv⟩
    obtain ⟨rn2, hrn2, ⟨htable2, hcount2, hsz2⟩, hflat2⟩ := hscatter
    rw [hrn2]
    refine ⟨_, _, rfl, fun _ => ?_, fun hr => absurd hr (by omega)⟩
    refine ⟨⟨htable2.used, htable2.cap, htable2.count⟩, ?_, ?_⟩
    · simp only [ByteFile.write, hsz2, hsz, ← h.size]
      split <;> omega
    have hbytes := h.bytes
    rw [← hview] at hbytes
    simp only [ByteFile.write, ← hbytes]
    exact hflat2
  · have hlast : (offset + data.length) % 2 ^ 64 < offset := by omega
    simp only [if_pos hlast]
    exact ⟨-efbig, rn, rfl, fun hr => absurd hr (by decide), fun _ => h⟩

end Cervus.Ramfs
