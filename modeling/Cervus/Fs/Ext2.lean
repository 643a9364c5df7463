import Cervus.Framework.Bitmap
import Cervus.Fs.WriteBack

/-! # The ext2 file system: state and allocation

    The model of the block and inode allocator of `fs/ext2.c`. A group has a bitmap of its
    blocks and one of its inodes, each in a block of the device and read and written
    through the block cache; the group descriptors and the superblock, with their counts
    of free blocks and inodes, are kept in memory.

    `kmalloc` succeeds. A bitmap is a function of the byte; the buffer of the source has
    `block_size` bytes, and a group with more bits than those is read and written behind its
    end. Checksums of bitmaps and descriptors are left out: nothing reads them back. -/

namespace Cervus.Ext2

open Bitmap

def enospc : Int := 28

/-- The fields of `ext2_superblock_t` in use, and the two tests of its features:
    `EXT4_FEATURE_RO_COMPAT_METADATA_CSUM`, and `group_csum`. -/
structure Superblock where
  inodesCount     : Nat
  blocksCount     : Nat
  freeBlocksCount : Nat
  freeInodesCount : Nat
  firstDataBlock  : Nat
  blocksPerGroup  : Nat
  inodesPerGroup  : Nat
  hasCsum         : Bool
  groupCsum       : Bool

/-- `ext2_group_desc_t` -/
structure GroupDesc where
  blockBitmap     : Nat
  inodeBitmap     : Nat
  inodeTable      : Nat
  freeBlocksCount : Nat
  freeInodesCount : Nat
  itableUnused    : Nat

/-- `ext2_t` -/
structure Fs where
  store       : Store Bytes
  sb          : Superblock
  gdt         : Nat → GroupDesc
  blockSize   : Nat
  groupsCount : Nat
  inodeSize   : Nat
  allocGroup  : Nat
  allocBit    : Nat

def Fs.setStore (fs : Fs) (store : Store Bytes) : Fs := { fs with store }

/-- The cast to `uint16_t`. -/
def u16 (n : Nat) : Nat := n % 2 ^ 16

/-- `--` and `++` on 16-bit and 32-bit counters. -/
def dec16 (n : Nat) : Nat := if n = 0 then 0xFFFF else n - 1

@[inherit_doc dec16] def inc16 (n : Nat) : Nat := u16 (n + 1)

@[inherit_doc dec16] def dec32 (n : Nat) : Nat := if n = 0 then 0xFFFFFFFF else n - 1

@[inherit_doc dec16] def inc32 (n : Nat) : Nat := u32 (n + 1)

/-- A block bitmap is written back, with the two counts of free blocks. -/
def writeBlockBitmap (fs : Fs) (g : Nat) (bmp : Bytes) (count total : Nat) : Fs :=
  { fs with
    store := blockWrite fs.store (fs.gdt g).blockBitmap bmp
    gdt := Function.update fs.gdt g { fs.gdt g with freeBlocksCount := count }
    sb := { fs.sb with freeBlocksCount := total } }

/-- An inode bitmap is written back, with the two counts of free inodes. -/
def writeInodeBitmap (fs : Fs) (g : Nat) (bmp : Bytes) (count total unused : Nat) : Fs :=
  { fs with
    store := blockWrite fs.store (fs.gdt g).inodeBitmap bmp
    gdt := Function.update fs.gdt g
      { fs.gdt g with freeInodesCount := count, itableUnused := unused }
    sb := { fs.sb with freeInodesCount := total } }

/-! ## Section 1: Inodes -/

/-- The inner loop of `alloc_inode`: the first clear bit. -/
def scanInodes (bmp : Bytes) (count : Nat) : Option Nat :=
  (List.range count).find? fun i => !test bmp i

/-- What `alloc_inode` does when it has found a bit. -/
def takeInode (fs : Fs) (g : Nat) (bmp : Bytes) (i : Nat) : Int × Fs :=
  let d := fs.gdt g
  let want := u16 (sub32 fs.sb.inodesPerGroup (i + 1))
  let unused := if fs.sb.groupCsum && want < d.itableUnused then want else d.itableUnused
  (i32 (u32 (g * fs.sb.inodesPerGroup + i + 1)),
    writeInodeBitmap fs g (set bmp i) (dec16 d.freeInodesCount)
      (dec32 fs.sb.freeInodesCount) unused)

/-- The outer loop of `alloc_inode`. -/
def allocInodeLoop (fs : Fs) : List Nat → Int × Fs
  | [] => (-enospc, fs)
  | g :: rest =>
    let d := fs.gdt g
    if d.freeInodesCount = 0 then allocInodeLoop fs rest
    else
      let r := blockRead fs.store d.inodeBitmap
      let fs := fs.setStore r.2
      match scanInodes r.1 fs.sb.inodesPerGroup with
      | none => allocInodeLoop fs rest
      | some i => takeInode fs g r.1 i

def allocInode (fs : Fs) : Int × Fs := allocInodeLoop fs (List.range fs.groupsCount)

def freeInode (fs : Fs) (ino : Nat) : Fs :=
  let idx := sub32 ino 1
  let group := idx / fs.sb.inodesPerGroup
  let loc := idx % fs.sb.inodesPerGroup
  let d := fs.gdt group
  let r := blockRead fs.store d.inodeBitmap
  writeInodeBitmap (fs.setStore r.2) group (clear r.1 loc) (inc16 d.freeInodesCount)
    (inc32 fs.sb.freeInodesCount) d.itableUnused

/-! ## Section 2: Blocks -/

/-- `g * s_blocks_per_group + i + s_first_data_block` -/
def absBlock (sb : Superblock) (g i : Nat) : Nat :=
  u32 (g * sb.blocksPerGroup + i + sb.firstDataBlock)

/-- The inner loop of `alloc_block`; eight used blocks are skipped at once. -/
def scanBlocks (sb : Superblock) (bmp : Bytes) (g : Nat) : Nat → Nat → Option Nat
  | 0, _ => none
  | fuel + 1, i =>
    if i < sb.blocksPerGroup then
      if i % 8 = 0 ∧ bmp (i / 8) = 0xFF ∧ i + 8 ≤ sb.blocksPerGroup then
        scanBlocks sb bmp g fuel (i + 8)
      else if sb.blocksCount ≤ absBlock sb g i then none
      else if !test bmp i then some i
      else scanBlocks sb bmp g fuel (i + 1)
    else none

/-- What `alloc_block` does when it has found a bit. -/
def takeBlock (fs : Fs) (g : Nat) (bmp : Bytes) (i : Nat) : Int × Fs :=
  let fs' := writeBlockBitmap fs g (set bmp i) (dec16 (fs.gdt g).freeBlocksCount)
    (dec32 fs.sb.freeBlocksCount)
  (i32 (absBlock fs.sb g i), { fs' with allocGroup := g, allocBit := i + 1 })

/-- The outer loop of `alloc_block`. -/
def allocBlockLoop (start bit : Nat) (fs : Fs) : List Nat → Int × Fs
  | [] => (-enospc, fs)
  | n :: rest =>
    let g := u32 (start + n) % fs.groupsCount
    let d := fs.gdt g
    if d.freeBlocksCount = 0 then allocBlockLoop start bit fs rest
    else
      let r := blockRead fs.store d.blockBitmap
      let fs := fs.setStore r.2
      let first := if n = 0 then bit else 0
      match scanBlocks fs.sb r.1 g fs.sb.blocksPerGroup first with
      | none => allocBlockLoop start bit fs rest
      | some i => takeBlock fs g r.1 i

/-- `alloc_block`: from the last group on, around and to the start of that group again. -/
def allocBlock (fs : Fs) : Int × Fs :=
  let start := if fs.allocGroup < fs.groupsCount then fs.allocGroup else 0
  allocBlockLoop start fs.allocBit fs (List.range (fs.groupsCount + 1))

/-- `ra_drop`, with its test for the cache. -/
def Fs.raDrop (fs : Fs) : Fs := fs.setStore { fs.store with wb := fs.store.wb.map Ext2.raDrop }

/-- The part of `free_block` for a group that exists. -/
def freeBlockIn (fs : Fs) (group loc : Nat) : Fs :=
  let d := fs.gdt group
  let r := blockRead fs.store d.blockBitmap
  writeBlockBitmap (fs.setStore r.2) group (clear r.1 loc) (inc16 d.freeBlocksCount)
    (inc32 fs.sb.freeBlocksCount)

def freeBlock (fs : Fs) (blk : Nat) : Fs :=
  if blk < fs.sb.firstDataBlock then fs.raDrop
  else
    let adj := blk - fs.sb.firstDataBlock
    let group := adj / fs.sb.blocksPerGroup
    let loc := adj % fs.sb.blocksPerGroup
    if fs.groupsCount ≤ group then fs.raDrop else freeBlockIn fs.raDrop group loc

end Cervus.Ext2
