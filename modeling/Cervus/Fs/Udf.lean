import Cervus.Framework.Bitmap
import Cervus.Framework.Runs
import Cervus.Framework.Word
import Mathlib.Data.UInt

/-! # UDF: file entries, blocks and file data

    A file is a block with its file entry. The bytes of the file are in the entry itself (inline)
    or in blocks, which the entry lists as allocation descriptors: a length and a first block. The
    space bitmap has a set bit for every free block; the driver reads it from the disk whenever it
    takes or returns a block.

    The device does what it is asked. Allocations of memory may fail (`failAfter`), but for the
    sector buffers that the source uses without a check: without those the kernel faults. The
    time stamps in a file entry and the integrity descriptor are left out. -/

namespace Cervus.Udf

/-! ## Section 1: The volume -/

/-- The sectors of the device. -/
abbrev Disk := Nat → Bytes

def tagFid : Nat := 257
def tagFe : Nat := 261
def tagEfe : Nat := 266

def enomem : Int := 12
def enospc : Int := 28
def efbig : Int := 27

/-- `8u * 1024 * 1024`, the largest file that the driver writes. -/
def maxSize : Nat := 8 * 1024 * 1024

/-- The fields of a `udf_fs_t` that the mount sets. -/
structure Geometry where
  blockSize   : Nat
  partStart   : Nat
  bitmapLba   : Nat
  bitmapNbits : Nat
  bitmapNbytes : Nat
  descVer     : Nat
  tagSerial   : Nat

/-- The device, and the outcome of the coming calls of `kmalloc`: how many succeed before each
    one that fails. With an empty list none fails. -/
structure Fs where
  disk      : Disk
  failAfter : List Nat

/-- The fields of a `udf_node_t` that reading and writing use. -/
structure Node where
  feLba : Nat
  size  : Nat

def kmalloc (fs : Fs) : Bool × Fs :=
  match fs.failAfter with
  | [] => (true, fs)
  | 0 :: rest => (false, { fs with failAfter := rest })
  | (n + 1) :: rest => (true, { fs with failAfter := n :: rest })

section

variable (g : Geometry)

/-- The sector of a block of the partition. -/
def lba (block : Nat) : Nat := u32 (g.partStart + block)

/-! ## Section 2: The space bitmap -/

/-- The number of sectors that the bitmap takes, with the 24 bytes before it. -/
def bitmapSectors : Nat := blockCount g.blockSize (24 + g.bitmapNbytes)

/-- The bitmap as `udf_alloc_block` reads it. -/
def bitmapBuf (d : Disk) : Bytes := flat g.blockSize fun s => d (u32 (g.bitmapLba + s))

/-- The bit of a block in the buffer: the bitmap begins at byte 24. -/
def bitOf (block : Nat) : Nat := 24 * 8 + block

/-- `buf[24 + block / 8] & (1u << (block & 7))` -/
def isFree (d : Disk) (block : Nat) : Bool := Bitmap.test (bitmapBuf g d) (bitOf block)

/-- Writes back the sector of the buffer that holds a bit. -/
def writeBit (d : Disk) (buf : Bytes) (block : Nat) : Disk :=
  let sec := (24 + block / 8) / g.blockSize
  Function.update d (u32 (g.bitmapLba + sec)) fun o => buf (sec * g.blockSize + o)

/-- `udf_alloc_block` -/
def allocBlock (fs : Fs) : Option Nat × Fs :=
  if g.bitmapLba = 0 ∨ g.bitmapNbits = 0 then (none, fs)
  else
    let m := kmalloc fs
    if !m.1 then (none, m.2)
    else
      match (List.range g.bitmapNbits).find? (isFree g m.2.disk) with
      | none => (none, m.2)
      | some bit =>
        let buf := Bitmap.clear (bitmapBuf g m.2.disk) (bitOf bit)
        (some bit, { m.2 with disk := writeBit g m.2.disk buf bit })

/-- `udf_free_block` -/
def freeBlock (fs : Fs) (block : Nat) : Fs :=
  if g.bitmapLba = 0 ∨ block ≥ g.bitmapNbits then fs
  else
    let m := kmalloc fs
    if !m.1 then m.2
    else if isFree g m.2.disk block then m.2
    else
      let buf := Bitmap.set (bitmapBuf g m.2.disk) (bitOf block)
      { m.2 with disk := writeBit g m.2.disk buf block }

/-- The loops that take `n` blocks; they stop when there is none. -/
def allocBlocks : Nat → Fs → List Nat × Fs
  | 0, fs => ([], fs)
  | n + 1, fs =>
    let r := allocBlock g fs
    match r.1 with
    | none => ([], r.2)
    | some b =>
      let rest := allocBlocks n r.2
      (b :: rest.1, rest.2)

/-- The loops that return blocks. -/
def freeBlocks (fs : Fs) (blocks : List Nat) : Fs := blocks.foldl (freeBlock g) fs

/-! ## Section 3: File entries -/

/-- `rd16(fe) == TAG_EFE`: an extended file entry. -/
def isEfe (fe : Bytes) : Bool := getLe 2 fe 0 = tagEfe

/-- The size of the entry's fixed part. -/
def headerLen (fe : Bytes) : Nat := if isEfe fe then 216 else 176

/-- `l_ea`, the length of the extended attributes. -/
def lEa (fe : Bytes) : Nat := getLe 4 fe (if isEfe fe then 208 else 168)

/-- `l_ad`, the length of the allocation descriptors or of the inline data. -/
def lAd (fe : Bytes) : Nat := getLe 4 fe (if isEfe fe then 212 else 172)

def adArea (fe : Bytes) : Nat := u32 (headerLen fe + lEa fe)

/-- `fe[34] & 7` -/
def adType (fe : Bytes) : Nat := (fe 34).toNat % 8

def infoLen (fe : Bytes) : Nat := getLe 8 fe 56

/-- The bytes after `ad_area`. -/
def inlineCap (fe : Bytes) : Nat := sub32 g.blockSize (adArea fe)

/-- The fields of the `k`-th short allocation descriptor. -/
def shortAd (fe : Bytes) (k : Nat) : Nat × Nat :=
  (getLe 4 fe (adArea fe + 8 * k), getLe 4 fe (adArea fe + 8 * k + 4))

/-- `for (p = 0; p + 8 <= l_ad; p += 8)` -/
def shortAds (fe : Bytes) : List (Nat × Nat) := (List.range (lAd fe / 8)).map (shortAd fe)

/-- The blocks of a descriptor; those of type 2 and 3 have none. -/
def adBlocks (ad : Nat × Nat) : List Nat :=
  if ad.1 / 2 ^ 30 ≥ 2 ∨ ad.1 % 2 ^ 30 = 0 then []
  else (List.range (blockCount g.blockSize (ad.1 % 2 ^ 30))).map fun k => u32 (ad.2 + k)

/-- `udf_load_blocks`: the list that it makes. -/
def loadBlocks (fe : Bytes) : List Nat := (shortAds fe).flatMap (adBlocks g)

/-- `udf_free_fe_extents` -/
def freeFeExtents (fs : Fs) (fe : Bytes) : Fs :=
  if adType fe ≠ 0 then fs else freeBlocks g fs (loadBlocks g fe)

/-- One byte of `udf_crc`. -/
def crcByte (crc : UInt16) (b : UInt8) : UInt16 :=
  (List.range 8).foldl (fun crc _ =>
    if crc &&& 0x8000 ≠ 0 then (crc <<< 1) ^^^ 0x1021 else crc <<< 1) (crc ^^^ (b.toUInt16 <<< 8))

/-- `udf_crc` of `n` bytes from `off` on. -/
def crc (d : Bytes) (off n : Nat) : UInt16 := (slice d off n).foldl crcByte 0

/-- `udf_finalize_tag` of the descriptor at `off`. -/
def finalizeTag (d : Bytes) (off tagId crcLen tagLoc : Nat) : Bytes :=
  let d := putLe 2 d off tagId
  let d := putLe 2 d (off + 2) g.descVer
  let d := Function.update (Function.update d (off + 4) 0) (off + 5) 0
  let d := putLe 2 d (off + 6) g.tagSerial
  let d := putLe 2 d (off + 8) (crc d (off + 16) crcLen).toNat
  let d := putLe 2 d (off + 10) crcLen
  let d := putLe 4 d (off + 12) tagLoc
  Function.update d (off + 4) (slice d off 16).sum

/-- `memset(fe + ad_area, 0, bs - ad_area)` -/
def clearArea (fe : Bytes) : Bytes := fun i =>
  if adArea fe ≤ i ∧ i < g.blockSize then 0 else fe i

/-- `fe[34] = (fe[34] & ~7) | type` -/
def setAdType (fe : Bytes) (type : UInt8) : Bytes :=
  Function.update fe 34 (fe 34 &&& 0xF8 ||| type)

/-- The lengths of an entry: the information length, the blocks and `l_ad`. An extended entry has
    the object size between. -/
def setLengths (fe : Bytes) (size blocks len : Nat) : Bytes :=
  if isEfe fe then putLe 4 (putLe 8 (putLe 8 (putLe 8 fe 56 size) 64 size) 72 blocks) 212 len
  else putLe 4 (putLe 8 (putLe 8 fe 56 size) 64 blocks) 172 len

/-- The tag of an entry whose area holds `used` bytes. -/
def sealFe (fe : Bytes) (feLba used : Nat) : Bytes :=
  finalizeTag g fe 0 (if isEfe fe then tagEfe else tagFe) ((adArea fe + used - 16) % 2 ^ 16)
    (sub32 feLba g.partStart)

/-- The descriptors one after the other. -/
def putAds (fe : Bytes) (off : Nat) : List (Nat × Nat) → Bytes
  | [] => fe
  | ad :: rest => putAds (putLe 4 (putLe 4 fe off ad.1) (off + 4) ad.2) (off + 8) rest

/-- The entry with the data in it. -/
def inlineFe (fe : Bytes) (feLba : Nat) (data : Bytes) (size : Nat) : Bytes :=
  let fe := setAdType (clearArea g fe) 3
  let fe := overwrite fe (adArea fe) (slice data 0 size)
  sealFe g (setLengths fe size 0 size) feLba size

/-- The entry with the descriptors in it. -/
def extentsFe (fe : Bytes) (feLba size blocks : Nat) (ads : List (Nat × Nat)) : Bytes :=
  let fe := clearArea g fe
  let fe := setAdType (putAds fe (adArea fe) ads) 0
  sealFe g (setLengths fe size blocks (8 * ads.length)) feLba (8 * ads.length)

/-! ## Section 4: Reading -/

/-- The loop of `udf_read_range` over the descriptors, at `pos` of the file. -/
def readExtents (d : Disk) (len offset : Nat) : List (Nat × Nat) → Nat → Nat → List UInt8
  | [], _, _ => []
  | (raw, block) :: rest, pos, copied =>
    if len ≤ copied then []
    else
      let extLen := raw % 2 ^ 30
      if extLen = 0 then []
      else if raw / 2 ^ 30 ≥ 2 then readExtents d len offset rest (pos + extLen) copied
      else
        let want := offset + copied
        -- the inner loop goes through the extent sector by sector
        let bytes := if want < pos + extLen ∧ want ≥ pos then
            gather g.blockSize (fun k off n => slice (d (u32 (lba g block + k))) off n) len
              (want - pos) (min (pos + extLen - want) (len - copied))
          else []
        bytes ++ readExtents d len offset rest (pos + extLen) (copied + bytes.length)

/-- The descriptors that `udf_read_range` goes through: long ones have 16 bytes. -/
def readAds (fe : Bytes) : List (Nat × Nat) :=
  let step := if adType fe = 1 then 16 else 8
  (((List.range (lAd fe / step)).map fun k => adArea fe + step * k).takeWhile
    fun p => p + step ≤ g.blockSize).map fun p => (getLe 4 fe p, getLe 4 fe (p + 4))

/-- `udf_read_range`: the bytes that it copies, or none if there is no memory. -/
def readRange (fs : Fs) (feLba len offset : Nat) : Option (List UInt8) × Fs :=
  let m := kmalloc fs
  if !m.1 then (none, m.2)
  else
    let fe := m.2.disk feLba
    if offset ≥ infoLen fe then (some [], m.2)
    else
      let len := if len > infoLen fe - offset then infoLen fe - offset else len
      if adType fe = 3 then
        (some (if offset < lAd fe then slice fe (adArea fe + offset) (min (lAd fe - offset) len)
          else []), m.2)
      else
        let m := kmalloc m.2
        if !m.1 then (none, m.2)
        else (some (readExtents g m.2.disk len offset (readAds g fe) 0 0), m.2)

/-- `udf_file_read` -/
def fileRead (fs : Fs) (nd : Node) (len offset : Nat) : Option (List UInt8) × Fs :=
  readRange g fs nd.feLba len offset

/-! ## Section 5: Writing an entry with its data -/

/-- The length of a file identifier descriptor, which is a multiple of four. -/
def fidLen (lIu lFi : Nat) : Nat := (38 + lIu + lFi + 3) / 4 * 4

/-- `udf_refinalize_fids`: the tags of the identifiers in the first `size` bytes. -/
def refinalizeFids (loc : Nat → Nat) (size : Nat) : Nat → Nat → Bytes → Bytes
  | 0, _, data => data
  | fuel + 1, off, data =>
    if off + 38 > size ∨ getLe 2 data off ≠ tagFid then data
    else
      let len := fidLen (getLe 2 data (off + 36)) (data (off + 19)).toNat
      if off + len > size then data
      else refinalizeFids loc size fuel (off + len)
        (finalizeTag g data off tagFid ((len - 16) % 2 ^ 16) (loc off))

/-- The data in blocks, and zeros after it in the last one. -/
def writeBlocks (data : Bytes) (size : Nat) : Nat → List Nat → Disk → Disk
  | _, [], d => d
  | bi, b :: rest, d =>
    let off := bi * g.blockSize
    writeBlocks data size (bi + 1) rest
      (Function.update d (lba g b) fun o => if off + o < size then data (off + o) else 0)

/-- The part of `udf_write_fe_data` that puts the data in blocks. -/
def writeFeBlocks (fs : Fs) (fe : Bytes) (feLba : Nat) (data : Bytes) (size : Nat)
    (isDir : Bool) : Int × Fs :=
  if size > maxSize then (-efbig, fs)
  else
    let nblocks := blockCount g.blockSize size
    let m := kmalloc fs
    if !m.1 then (-enomem, m.2)
    else
      let a := allocBlocks g nblocks m.2
      if a.1.length < nblocks then (-enospc, freeBlocks g a.2 a.1)
      else
        let ads := extents g.blockSize size 0 (runs a.1)
        if ads.length > inlineCap g fe / 8 then (-efbig, freeBlocks g a.2 a.1)
        else
          let loc := fun off => a.1.getD (off / g.blockSize) 0
          let data := if isDir then refinalizeFids g loc size size 0 data else data
          let d := writeBlocks g data size 0 a.1 a.2.disk
          let fe := extentsFe g fe feLba size nblocks ads
          (0, { a.2 with disk := Function.update d feLba fe })

/-- `udf_write_fe_data` -/
def writeFeData (fs : Fs) (fe : Bytes) (feLba : Nat) (data : Bytes) (size : Nat)
    (isDir : Bool) : Int × Fs :=
  if size ≤ inlineCap g fe then
    let loc := fun _ => sub32 feLba g.partStart
    let data := if isDir then refinalizeFids g loc size size 0 data else data
    (0, { fs with disk := Function.update fs.disk feLba (inlineFe g fe feLba data size) })
  else writeFeBlocks g fs fe feLba data size isDir

/-- What `udf_resize_write` and the inline part of `udf_file_write` do: the old bytes are read,
    `data` is copied over them, and the entry is written anew. The old blocks are returned before
    new ones are taken. -/
def rewriteFile (fs : Fs) (feLba : Nat) (fe : Bytes) (data : List UInt8) (offset newSize : Nat) :
    Int × Fs :=
  let m := kmalloc fs
  if !m.1 then (-enomem, m.2)
  else
    let keep := if infoLen fe < newSize then infoLen fe else newSize
    let r := if keep > 0 then readRange g m.2 feLba keep 0 else (some [], m.2)
    let buf := overwrite (overwrite (fun _ => 0) 0 (r.1.getD [])) offset data
    writeFeData g (freeFeExtents g r.2 fe) fe feLba buf newSize false

/-- The size after a write. -/
def sizeAfter (cur offset len : Nat) : Nat :=
  if u64 (offset + len) > cur then u64 (offset + len) else cur

/-- `udf_resize_write` -/
def resizeWrite (fs : Fs) (nd : Node) (data : List UInt8) (offset : Nat) (isTrunc : Bool) :
    Int × Node × Fs :=
  let m := kmalloc fs
  if !m.1 then (-enomem, nd, m.2)
  else
    let fe := m.2.disk nd.feLba
    let newSize := if isTrunc then offset else sizeAfter (infoLen fe) offset data.length
    if newSize > maxSize then (-efbig, nd, m.2)
    else
      let w := rewriteFile g m.2 nd.feLba fe (if isTrunc then [] else data) offset newSize
      if w.1 < 0 then (w.1, nd, w.2)
      else (if isTrunc then 0 else data.length, { nd with size := newSize }, w.2)

/-- `udf_truncate` -/
def truncate (fs : Fs) (nd : Node) (newSize : Nat) : Int × Node × Fs :=
  resizeWrite g fs nd [] newSize true

/-! ## Section 6: Writing in place -/

/-- New blocks that a write to `offset` up to `stop` does not touch become zero. -/
def zeroBlocks (blocks : List Nat) (offset stop : Nat) (content needed : Nat) (d : Disk) : Disk :=
  (List.range' content (needed - content)).foldl (fun d bi =>
    if bi * g.blockSize + g.blockSize ≤ offset ∨ bi * g.blockSize ≥ stop then
      Function.update d (lba g (blocks.getD bi 0)) fun _ => 0
    else d) d

/-- A turn of the loop of `udf_file_write`: a block that is written in part is read first, if it
    held data before. -/
def putBlock (blocks : List Nat) (content bi boff : Nat) (data : List UInt8) (d : Disk) :
    Option Disk :=
  let b := lba g (blocks.getD bi 0)
  let sec := if boff ≠ 0 ∨ data.length ≠ g.blockSize then
      overwrite (if bi < content then d b else fun _ => 0) boff data
    else overwrite (fun _ => 0) 0 data
  some (Function.update d b sec)

/-- The part of `udf_file_write` that works on blocks. The entry is written last; if the runs do
    not fit into it, the blocks stay as they are. -/
def fileWriteBlocks (fs : Fs) (nd : Node) (fe : Bytes) (data : List UInt8)
    (offset newSize : Nat) : Int × Node × Fs :=
  let cur := infoLen fe
  let content := blockCount g.blockSize cur
  let diskBlocks := if adType fe = 3 then 0 else content
  let needed := blockCount g.blockSize newSize
  let m := kmalloc fs
  if !m.1 then (-enomem, nd, m.2)
  else
    -- the copy of the inline data, or the list of the blocks
    let m := if adType fe = 3 ∧ cur = 0 then (true, m.2) else kmalloc m.2
    if !m.1 then (-enomem, nd, m.2)
    else
      let old := if adType fe = 3 then [] else (loadBlocks g fe).take diskBlocks
      let a := allocBlocks g (needed - diskBlocks) m.2
      if a.1.length < needed - diskBlocks then (-enospc, nd, freeBlocks g a.2 a.1)
      else
        let blocks := old ++ a.1
        let d := if adType fe = 3 then
            writeBlocks g (fun i => fe (adArea fe + i)) cur 0 (blocks.take content) a.2.disk
          else a.2.disk
        let d := zeroBlocks g blocks offset (offset + data.length) content needed d
        let d := (scatter g.blockSize (putBlock g blocks content) data.length offset data d).getD d
        let ads := extents g.blockSize newSize 0 (runs blocks)
        if ads.length > inlineCap g fe / 8 then (-efbig, nd, { a.2 with disk := d })
        else
          let fe := extentsFe g fe nd.feLba newSize needed ads
          (data.length, { nd with size := newSize },
            { a.2 with disk := Function.update d nd.feLba fe })

/-- `udf_file_write` -/
def fileWrite (fs : Fs) (nd : Node) (data : List UInt8) (offset : Nat) : Int × Node × Fs :=
  if data.length = 0 then (0, nd, fs)
  else
    let m := kmalloc fs
    if !m.1 then (-enomem, nd, m.2)
    else
      let fe := m.2.disk nd.feLba
      let newSize := sizeAfter (infoLen fe) offset data.length
      if newSize > maxSize then (-efbig, nd, m.2)
      else if newSize ≤ inlineCap g fe then
        let w := rewriteFile g m.2 nd.feLba fe data offset newSize
        if w.1 < 0 then (w.1, nd, w.2) else (data.length, { nd with size := newSize }, w.2)
      else if adType fe = 1 then resizeWrite g m.2 nd data offset false
      else fileWriteBlocks g m.2 nd fe data offset newSize

/-! ## Section 7: New entries -/

/-- The entry of a new file: that of its directory, with no data. -/
def createFe (dirFe : Bytes) (block : Nat) : Bytes :=
  let fe := Function.update dirFe 27 5
  let fe := Function.update (setAdType fe 3) 35 0
  let fe := putLe 2 (putLe 4 fe 44 0x7884) 48 1
  let fe := clearArea g (setLengths fe 0 0 0)
  let fe := putLe 8 fe (if isEfe fe then 200 else 160) (block + 16)
  finalizeTag g fe 0 (if isEfe fe then tagEfe else tagFe) ((adArea fe - 16) % 2 ^ 16) block

end

end Cervus.Udf
