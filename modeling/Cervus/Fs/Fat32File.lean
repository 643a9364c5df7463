import Cervus.Fs.Fat32

/-! # FAT32: reading and writing a file

    A file is a chain of clusters. `fat32_file_read` walks the chain from the first cluster and
    reads clusters that follow each other on the disk in one go. `fat32_file_write` starts from
    the cluster that the last write ended in, if that is not too far, and allocates clusters on
    its way: with zeros when they are not written as a whole. -/

namespace Cervus.Fat32

/-- The fields of a `fat32_vdata_t` that reading and writing use. `node->size` is `file_size`. -/
structure Vdata where
  firstCluster  : Nat
  fileSize      : Nat
  cachedCluster : Nat
  cachedIndex   : Nat

/-- `FAT32_MAX_RUN_SECTORS` -/
def maxRunSectors : Nat := 256

def enospc : Int := 28

section

variable (g : Geometry)

/-! ## Section 1: Reading -/

/-- `for (i = 0; i < cluster_off; i++)` of `fat32_file_read`; it returns when the chain ends. -/
def seekRead : Nat → Fs → Nat → Option Nat × Fs
  | 0, fs, cluster => (some cluster, fs)
  | n + 1, fs, cluster =>
    if isEoc cluster ∨ cluster < 2 then (none, fs)
    else
      let next := fatReadEntry g fs cluster
      seekRead n next.2 next.1

/-- What the search for clusters that follow each other finds: how many there are, the last one,
    and the one after it in the chain if it was read (`prefetched`). -/
structure Run where
  count      : Nat
  last       : Nat
  prefetched : Nat

/-- The inner loop of `fat32_file_read`, with `left` bytes to read. -/
def readRun (left : Nat) : Nat → Nat → Nat → Fs → Run × Fs
  | 0, run, last, fs => (⟨run, last, 0⟩, fs)
  | fuel + 1, run, last, fs =>
    if (run + 1) * g.bytesPerCluster ≤ left ∧ run * g.sectorsPerCluster < maxRunSectors then
      let nxt := fatReadEntry g fs last
      if isEoc nxt.1 ∨ nxt.1 < 2 then (⟨run, last, 0⟩, nxt.2)
      else if nxt.1 ≠ last + 1 then (⟨run, last, nxt.1⟩, nxt.2)
      else readRun left fuel (run + 1) nxt.1 nxt.2
    else (⟨run, last, 0⟩, fs)

/-- `cluster = prefetched ? prefetched : fat_read_entry(fs, cluster)` -/
def readNext (fs : Fs) (run : Run) : Nat × Fs :=
  if run.prefetched ≠ 0 then (run.prefetched, fs) else fatReadEntry g fs run.last

/-- A turn of the loop of `fat32_file_read` that reads whole clusters. -/
def readWhole (fs : Fs) (cluster left : Nat) : List UInt8 × Run × Fs :=
  match readRun g left maxRunSectors 1 cluster fs with
  | (run, fs) =>
    (slice (readSectors fs.disk (clusterToLba g cluster)) 0 (run.count * g.bytesPerCluster),
      run, fs)

/-- A turn that reads part of a cluster. -/
def readPart (fs : Fs) (cluster inClusterOff take : Nat) : List UInt8 × Run × Fs :=
  (slice (readCluster g fs cluster) inClusterOff take, ⟨1, cluster, 0⟩, fs)

/-- The loop of `fat32_file_read`. -/
def readLoop : Nat → Nat → Nat → Nat → Fs → List UInt8 × Fs
  | 0, _, _, _, fs => ([], fs)
  | fuel + 1, cluster, inClusterOff, left, fs =>
    if left = 0 ∨ isEoc cluster ∨ cluster < 2 then ([], fs)
    else
      let avail := g.bytesPerCluster - inClusterOff
      let take := if avail < left then avail else left
      let turn := if inClusterOff = 0 ∧ take = g.bytesPerCluster then readWhole g fs cluster left
        else readPart g fs cluster inClusterOff take
      let bytes := turn.1
      if left - bytes.length = 0 then (bytes, turn.2.2)
      else
        let next := readNext g turn.2.2 turn.2.1
        let rest := readLoop fuel next.1 0 (left - bytes.length) next.2
        (bytes ++ rest.1, rest.2)

/-- `fat32_file_read`: the bytes it copies. It returns how many they are. -/
def fileRead (fs : Fs) (vd : Vdata) (len offset : Nat) : List UInt8 × Fs :=
  if offset ≥ vd.fileSize then ([], fs)
  else
    let len := if u64 (offset + len) > vd.fileSize then vd.fileSize - offset else len
    match seekRead g (u32 (offset / g.bytesPerCluster)) fs vd.firstCluster with
    | (none, fs) => ([], fs)
    | (some cluster, fs) => readLoop g len cluster (offset % g.bytesPerCluster) len fs

/-! ## Section 2: Writing -/

/-- `for (i = start_index; i < target_index; i++)` of `fat32_file_write` -/
def seekWrite : Nat → Fs → Nat → Option Nat × Fs
  | 0, fs, cluster => (some cluster, fs)
  | n + 1, fs, cluster =>
    let next := chainNextOrAlloc g fs cluster true
    if next.1 = 0 then (none, next.2) else seekWrite n next.2 next.1

/-- The inner loop of `fat32_file_write`. -/
def writeRun (left : Nat) : Nat → Nat → Nat → Fs → Run × Fs
  | 0, run, last, fs => (⟨run, last, 0⟩, fs)
  | fuel + 1, run, last, fs =>
    if (run + 1) * g.bytesPerCluster ≤ left ∧ run * g.sectorsPerCluster < maxRunSectors then
      let nxt := chainNextOrAlloc g fs last false
      if nxt.1 = 0 then (⟨run, last, 0⟩, nxt.2)
      else if nxt.1 ≠ last + 1 then (⟨run, last, nxt.1⟩, nxt.2)
      else writeRun left fuel (run + 1) nxt.1 nxt.2
    else (⟨run, last, 0⟩, fs)

/-- The next cluster when `left` bytes are still to be written. -/
def writeNext (fs : Fs) (run : Run) (left : Nat) : Nat × Fs :=
  if run.prefetched ≠ 0 then (run.prefetched, fs)
  else chainNextOrAlloc g fs run.last (left < g.bytesPerCluster)

/-- The bytes of a list as a buffer. -/
def bufferOf (data : List UInt8) : Bytes := fun i => data.getD i 0

/-- A turn of the loop of `fat32_file_write` that writes whole clusters. -/
def writeWhole (fs : Fs) (cluster : Nat) (data : List UInt8) : Run × Fs :=
  match writeRun g data.length maxRunSectors 1 cluster fs with
  | (run, fs) =>
    let count := run.count * g.sectorsPerCluster
    (run, { fs with disk := writeSectors fs.disk (clusterToLba g cluster) count (bufferOf data) })

/-- A turn that writes part of a cluster. -/
def writePart (fs : Fs) (cluster inClusterOff : Nat) (data : List UInt8) : Run × Fs :=
  let buf := overwrite (readCluster g fs cluster) inClusterOff data
  (⟨1, cluster, 0⟩, writeCluster g fs cluster buf)

/-- Where the loop of `fat32_file_write` is: `done`, `cluster` and `current_index`. -/
structure Written where
  done    : Nat
  cluster : Nat
  index   : Nat

/-- The loop of `fat32_file_write`. -/
def writeLoop : Nat → Written → Nat → List UInt8 → Fs → Written × Fs
  | 0, w, _, _, fs => (w, fs)
  | fuel + 1, w, inClusterOff, data, fs =>
    if data.length = 0 then (w, fs)
    else
      let avail := g.bytesPerCluster - inClusterOff
      let take := if avail < data.length then avail else data.length
      let whole := inClusterOff = 0 ∧ take = g.bytesPerCluster
      let turn := if whole then writeWhole g fs w.cluster data
        else writePart g fs w.cluster inClusterOff (data.take take)
      let run := turn.1
      let n := if whole then run.count * g.bytesPerCluster else take
      let w := ⟨w.done + n, run.last, w.index + (run.count - 1)⟩
      if data.length - n = 0 then (w, turn.2)
      else
        let next := writeNext g turn.2 run (data.length - n)
        if next.1 = 0 then (w, next.2)
        else writeLoop fuel ⟨w.done, next.1, w.index + 1⟩ 0 (data.drop n) next.2

/-- The first cluster of the file, which a write allocates when there is none. -/
def firstOrAlloc (fs : Fs) (vd : Vdata) : Option Vdata × Fs :=
  if vd.firstCluster = 0 then
    match allocateCluster g fs with
    | (c, fs) =>
      if c = 0 then (none, fs)
      else (some { vd with firstCluster := c, cachedCluster := c, cachedIndex := 0 }, fs)
  else (some vd, fs)

/-- `fat32_file_write`: what it returns, and the vnode data and the volume after it. -/
def fileWrite (fs : Fs) (vd : Vdata) (data : List UInt8) (offset : Nat) : Int × Vdata × Fs :=
  match firstOrAlloc g fs vd with
  | (none, fs) => (-enospc, vd, fs)
  | (some vd, fs) =>
    let target := u32 (offset / g.bytesPerCluster)
    let start := if vd.cachedCluster ≠ 0 ∧ vd.cachedIndex ≤ target then
        (vd.cachedCluster, vd.cachedIndex) else (vd.firstCluster, 0)
    match seekWrite g (target - start.2) fs start.1 with
    | (none, fs) => (-enospc, vd, fs)
    | (some cluster, fs) =>
      match writeLoop g data.length ⟨0, cluster, target⟩ (offset % g.bytesPerCluster) data fs with
      | (w, fs) =>
        let vd := { vd with cachedCluster := w.cluster, cachedIndex := w.index }
        let newSize := u64 (offset + w.done)
        (w.done,
          if newSize > vd.fileSize then { vd with fileSize := u32 newSize } else vd, fs)

end

end Cervus.Fat32
