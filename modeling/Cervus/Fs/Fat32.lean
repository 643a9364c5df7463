import Mathlib.Data.Nat.Bitwise
import Cervus.Framework.ByteFile
import Cervus.Framework.Word
import Cervus.Framework.Writes

/-! # FAT32: the allocation table

    The driver keeps one sector of the file allocation table in memory. An entry is read and
    written there; the sector goes back to the disk, to every copy of the table, when another one
    is needed or the table is flushed.

    The device does what it is asked and allocations of buffers succeed. `readonly` is false from
    the mount on, and `bytes_per_sector` is 512, the only value that the mount accepts. -/

namespace Cervus.Fat32

/-! ## Section 1: The volume -/

/-- The sectors of the device. -/
abbrev Disk := Nat → Bytes

/-- `FAT32_SECTOR_SIZE`, and `bytes_per_sector` of every mounted volume. -/
def sectorSize : Nat := 512

/-- The entries in a sector of the table. -/
def perSector : Nat := 128

/-- `FAT32_EOC` -/
def eoc : Nat := 0x0FFFFFFF

/-- `FAT32_EOC_MIN` -/
def eocMin : Nat := 0x0FFFFFF8

/-- `FAT32_CLUSTER_MASK` -/
def clusterMask : Nat := 0x0FFFFFFF

/-- The value of `free_count` when it is not known. -/
def unknownCount : Nat := 0xFFFFFFFF

/-- What the mount computes from the boot sector. -/
structure Geometry where
  sectorsPerCluster : Nat
  numFats           : Nat
  fatSizeSectors    : Nat
  firstFatSector    : Nat
  firstDataSector   : Nat
  totalClusters     : Nat
  rootCluster       : Nat

def Geometry.bytesPerCluster (g : Geometry) : Nat := sectorSize * g.sectorsPerCluster

/-- The fields of a `fat32_t` that change, and the device. `fat_cache_sec` is `none` when it is
    `FAT_CACHE_NONE`. -/
structure Fs where
  disk         : Disk
  cacheSec     : Option Nat
  cache        : Bytes
  cacheDirty   : Bool
  nextFreeHint : Nat
  freeCount    : Nat

/-! ## Section 2: The cached sector -/

section

variable (g : Geometry)

/-- The sector of copy `i` of the table that holds its sector `sec`. -/
def copyLba (i sec : Nat) : Nat := u32 (g.firstFatSector + i * g.fatSizeSectors + sec)

def fatCacheFlush (fs : Fs) : Fs :=
  match fs.cacheSec with
  | none => fs
  | some sec =>
    if fs.cacheDirty then
      { fs with
        disk := Writes.apply fs.disk
          ((List.range g.numFats).map fun i => (copyLba g i sec, fs.cache))
        cacheDirty := false }
    else fs

def fatCacheLoad (fs : Fs) (rel : Nat) : Fs :=
  if fs.cacheSec = some rel then fs
  else
    let fs := fatCacheFlush g fs
    { fs with cache := fs.disk (u32 (g.firstFatSector + rel)), cacheSec := some rel }

def fatReadEntry (fs : Fs) (cluster : Nat) : Nat × Fs :=
  let fatOffset := u32 (cluster * 4)
  let rel := fatOffset / sectorSize
  let entOffset := fatOffset % sectorSize
  let fs := fatCacheLoad g fs rel
  (getLe 4 fs.cache entOffset &&& clusterMask, fs)

def fatWriteEntry (fs : Fs) (cluster value : Nat) : Fs :=
  let fatOffset := u32 (cluster * 4)
  let rel := fatOffset / sectorSize
  let entOffset := fatOffset % sectorSize
  let fs := fatCacheLoad g fs rel
  let existing := getLe 4 fs.cache entOffset
  let merged := (value &&& clusterMask) ||| (existing &&& 0xF0000000)
  { fs with cache := putLe 4 fs.cache entOffset merged, cacheDirty := true }

/-! ## Section 3: Clusters -/

/-- `fat32_is_eoc` -/
def isEoc (cluster : Nat) : Bool := eocMin ≤ (cluster &&& clusterMask)

def clusterToLba (cluster : Nat) : Nat :=
  u32 (g.firstDataSector + sub32 cluster 2 * g.sectorsPerCluster)

/-- `write_sectors` of the device. -/
def writeSectors (disk : Disk) (lba count : Nat) (buf : Bytes) : Disk := fun l =>
  if lba ≤ l ∧ l < lba + count then fun o => buf ((l - lba) * sectorSize + o) else disk l

/-- `read_sectors` of the device. -/
def readSectors (disk : Disk) (lba : Nat) : Bytes := fun o =>
  disk (lba + o / sectorSize) (o % sectorSize)

def readCluster (fs : Fs) (cluster : Nat) : Bytes := readSectors fs.disk (clusterToLba g cluster)

def writeCluster (fs : Fs) (cluster : Nat) (buf : Bytes) : Fs :=
  { fs with disk := writeSectors fs.disk (clusterToLba g cluster) g.sectorsPerCluster buf }

/-- The cluster that turn `i` of the search tries. -/
def candidate (start i : Nat) : Nat := 2 + u32 (start - 2 + i) % g.totalClusters

/-- The search of `allocate_cluster_ex`: the entry of the first free cluster is made an end of a
    chain. There is none when it returns 0. -/
def allocLoop (start : Nat) : Nat → Nat → Fs → Nat × Fs
  | 0, _, fs => (0, fs)
  | fuel + 1, i, fs =>
    let c := candidate g start i
    match fatReadEntry g fs c with
    | (v, fs) => if v = 0 then (c, fatWriteEntry g fs c eoc) else allocLoop start fuel (i + 1) fs

def allocateClusterEx (fs : Fs) (zeroFill : Bool) : Nat × Fs :=
  let start := if fs.nextFreeHint < 2 then 2 else fs.nextFreeHint
  match allocLoop g start g.totalClusters 0 fs with
  | (c, fs) =>
    if c = 0 then (0, fs)
    else
      let fs := { fs with
        nextFreeHint := c + 1
        freeCount := if fs.freeCount ≠ unknownCount then sub32 fs.freeCount 1 else fs.freeCount }
      (c, if zeroFill then writeCluster g fs c fun _ => 0 else fs)

def allocateCluster (fs : Fs) : Nat × Fs := allocateClusterEx g fs true

def chainNextOrAlloc (fs : Fs) (cluster : Nat) (zeroFill : Bool) : Nat × Fs :=
  match fatReadEntry g fs cluster with
  | (next, fs) =>
    if !isEoc next && 2 ≤ next then (next, fs)
    else
      match allocateClusterEx g fs zeroFill with
      | (nc, fs) => if nc = 0 then (0, fs) else (nc, fatWriteEntry g fs cluster nc)

/-- `free_cluster_chain`: no result when the loop takes more than `fuel` turns. -/
def freeClusterChain : Nat → Fs → Nat → Option Fs
  | 0, fs, c => if 2 ≤ c ∧ !isEoc c then none else some fs
  | fuel + 1, fs, c =>
    if 2 ≤ c ∧ !isEoc c then
      match fatReadEntry g fs c with
      | (next, fs) =>
        let fs := fatWriteEntry g fs c 0
        let fs := { fs with
          freeCount :=
            if fs.freeCount ≠ unknownCount then u32 (fs.freeCount + 1) else fs.freeCount }
        freeClusterChain fuel fs next
    else some fs

end

end Cervus.Fat32
