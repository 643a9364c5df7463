import Cervus.Framework.Word
import Mathlib.Data.List.FinRange

/-! # The block cache of ext2

    The model of the write-back cache of `fs/ext2.c`: 256 slots, found by block number
    and replaced by age, between the file system and its device. Metadata goes through
    the cache; file data is written to the device directly, block by block or as a run
    of blocks, and the cache is told.

    The device is an array of blocks whose contents are of any type. It is reliable, so
    that no function here reports an error, and there is no journal transaction.
    Read-ahead buffers are part of the state; they are filled by reads of files. -/

namespace Cervus.Ext2

/-! ## Section 1: State -/

def wbSlots : Nat := 256

def wbFlushRun : Nat := 32

def raSlots : Nat := 4

/-- The `i`-th entries of the arrays of `ext2_wb_t`. -/
structure WbSlot (β : Type) where
  blk   : Nat
  used  : Nat
  valid : Bool
  dirty : Bool
  buf   : β

/-- A read-ahead buffer: `n` blocks of a file from `fb` on. -/
structure RaSlot (β : Type) where
  ino  : Nat
  fb   : Nat
  n    : Nat
  used : Nat
  buf  : Nat → β

/-- `ext2_wb_t`; `flushbuf` says whether that buffer could be allocated, and a read-ahead
    buffer that could not is `none`. -/
structure Wb (β : Type) where
  depth      : Nat
  persistent : Bool
  tick       : Nat
  ndirty     : Nat
  slots      : Fin wbSlots → WbSlot β
  flushbuf   : Bool
  ra         : Fin raSlots → Option (RaSlot β)

/-- The device with the cache. -/
structure Cache (β : Type) where
  dev : Nat → β
  wb  : Wb β

/-- The device, with a cache if `wb_init` had the memory for one. -/
structure Store (β : Type) where
  dev : Nat → β
  wb  : Option (Wb β)

variable {β : Type}

def Cache.store (c : Cache β) : Store β := ⟨c.dev, some c.wb⟩

def Wb.setSlot (wb : Wb β) (i : Fin wbSlots) (s : WbSlot β) : Wb β :=
  { wb with slots := Function.update wb.slots i s }

/-! ## Section 2: Slots -/

def wbMarkDirty (wb : Wb β) (i : Fin wbSlots) : Wb β :=
  if (wb.slots i).dirty then wb
  else { wb.setSlot i { wb.slots i with dirty := true } with ndirty := u32 (wb.ndirty + 1) }

def wbMarkClean (wb : Wb β) (i : Fin wbSlots) : Wb β :=
  if (wb.slots i).dirty then
    { wb.setSlot i { wb.slots i with dirty := false } with ndirty := sub32 wb.ndirty 1 }
  else wb

def wbFind (wb : Wb β) (block : Nat) : Option (Fin wbSlots) :=
  (List.finRange wbSlots).find? fun i => (wb.slots i).valid && (wb.slots i).blk == block

/-- `blkdev_write` of whole blocks. -/
def blkdevWrite (dev : Nat → β) (start : Nat) (vs : List β) : Nat → β := fun b =>
  if start ≤ b then (vs[b - start]?).getD (dev b) else dev b

def wbFlushSlot (c : Cache β) (i : Fin wbSlots) : Cache β :=
  let s := c.wb.slots i
  if !s.valid || !s.dirty then c
  else ⟨blkdevWrite c.dev s.blk [s.buf], wbMarkClean c.wb i⟩

/-! ## Section 3: Flushing -/

/-- One round of the sort in `wb_flush_all`; the slots before the one that moves are
    given from the last one down. -/
def insertDown (wb : Wb β) (x : Fin wbSlots) : List (Fin wbSlots) → List (Fin wbSlots)
  | [] => [x]
  | y :: ys =>
    if (wb.slots x).blk < (wb.slots y).blk then y :: insertDown wb x ys else x :: y :: ys

/-- The slots to flush, by block number. -/
def flushOrder (wb : Wb β) : List (Fin wbSlots) :=
  let order := (List.finRange wbSlots).filter fun i => (wb.slots i).valid && (wb.slots i).dirty
  (order.foldl (fun sorted x => insertDown wb x sorted) []).reverse

/-- `while (… wb->blk[order[a + len]] == wb->blk[order[a]] + len) len++`, on what follows
    `order[a]`. -/
def runLen (wb : Wb β) (start : Nat) : Nat → List (Fin wbSlots) → Nat
  | len, [] => len
  | len, i :: rest =>
    if len < wbFlushRun ∧ (wb.slots i).blk = u32 (start + len) then runLen wb start (len + 1) rest
    else len

/-- One round of the loop of `wb_flush_all`. -/
def flushRun (c : Cache β) (run : List (Fin wbSlots)) : Cache β :=
  match run with
  | [] => c
  | i :: _ =>
    if 1 < run.length ∧ c.wb.flushbuf then
      ⟨blkdevWrite c.dev (c.wb.slots i).blk (run.map fun k => (c.wb.slots k).buf),
        run.foldl wbMarkClean c.wb⟩
    else run.foldl wbFlushSlot c

/-- The loop of `wb_flush_all`; every round flushes at least one slot. -/
def flushRuns : Nat → Cache β → List (Fin wbSlots) → Cache β
  | 0, c, _ => c
  | _ + 1, c, [] => c
  | fuel + 1, c, i :: rest =>
    let len := runLen c.wb (c.wb.slots i).blk 1 rest
    flushRuns fuel (flushRun c ((i :: rest).take len)) ((i :: rest).drop len)

def wbFlushAll (c : Cache β) : Cache β :=
  if c.wb.ndirty = 0 then c
  else
    let order := flushOrder c.wb
    flushRuns order.length c order

/-- One round of `wb_forget`. -/
def forgetSlot (start count : Nat) (wb : Wb β) (i : Fin wbSlots) : Wb β :=
  let s := wb.slots i
  if !s.valid || s.blk < start || count ≤ s.blk - start then wb
  else
    let wb := wbMarkClean wb i
    wb.setSlot i { wb.slots i with valid := false }

def wbForget (wb : Wb β) (start count : Nat) : Wb β :=
  (List.finRange wbSlots).foldl (forgetSlot start count) wb

/-- `wb_begin`, for a cache that exists. -/
def wbBegin (c : Cache β) : Cache β := { c with wb := { c.wb with depth := c.wb.depth + 1 } }

/-- The last loop of `wb_end`. -/
def dropSlot (c : Cache β) (i : Fin wbSlots) : Cache β :=
  let c := wbFlushSlot c i
  let wb := wbMarkClean c.wb i
  { c with wb := wb.setSlot i { wb.slots i with valid := false } }

def wbEnd (c : Cache β) : Cache β :=
  if c.wb.depth = 0 then c
  else
    let c := { c with wb := { c.wb with depth := c.wb.depth - 1 } }
    if 0 < c.wb.depth ∨ c.wb.persistent then c
    else (List.finRange wbSlots).foldl dropSlot (wbFlushAll c)

def raDrop (wb : Wb β) : Wb β :=
  { wb with ra := fun i => (wb.ra i).map fun r => { r with n := 0 } }

/-! ## Section 4: Blocks -/

def wbUsable (wb : Wb β) : Bool := wb.persistent || wb.depth != 0

/-- The loop of `wb_slot`: the first free slot, or else the oldest. -/
def victimLoop (wb : Wb β) : List (Fin wbSlots) → Fin wbSlots → Fin wbSlots
  | [], victim => victim
  | k :: rest, victim =>
    if !(wb.slots k).valid then k
    else victimLoop wb rest (if (wb.slots k).used < (wb.slots victim).used then k else victim)

/-- The slot that `wb_slot` empties for a new block. -/
def evict (c : Cache β) : Fin wbSlots × Cache β :=
  let victim := victimLoop c.wb (List.finRange wbSlots) ⟨0, by decide⟩
  let s := c.wb.slots victim
  let c := if s.valid && s.dirty then
      (if c.wb.persistent then wbFlushAll c else wbFlushSlot c victim)
    else c
  (victim, c)

/-- `wb->used[i] = ++wb->tick` -/
def touchSlot (wb : Wb β) (i : Fin wbSlots) : Wb β :=
  let tick := u32 (wb.tick + 1)
  { wb.setSlot i { wb.slots i with used := tick } with tick }

def wbSlot (c : Cache β) (block : Nat) (load : Bool) : Fin wbSlots × Cache β :=
  match wbFind c.wb block with
  | some i => (i, { c with wb := touchSlot c.wb i })
  | none =>
    let r := evict c
    let i := r.1
    let c := r.2
    let s := c.wb.slots i
    let buf := if load then c.dev block else s.buf
    let wb := c.wb.setSlot i { s with blk := block, valid := true, dirty := false, buf }
    (i, { c with wb := touchSlot wb i })

/-- `memcpy(wb->buf[i], v, fs->block_size)` -/
def setBuf (wb : Wb β) (i : Fin wbSlots) (v : β) : Wb β := wb.setSlot i { wb.slots i with buf := v }

/-- `ext2_block_read` -/
def blockRead (s : Store β) (block : Nat) : β × Store β :=
  match s.wb with
  | none => (s.dev block, s)
  | some wb =>
    if wbUsable wb then
      let r := wbSlot ⟨s.dev, wb⟩ block true
      ((r.2.wb.slots r.1).buf, r.2.store)
    else (s.dev block, s)

/-- `ext2_block_write` -/
def blockWrite (s : Store β) (block : Nat) (v : β) : Store β :=
  match s.wb with
  | none => { s with dev := blkdevWrite s.dev block [v] }
  | some wb =>
    if wbUsable wb then
      let r := wbSlot ⟨s.dev, wb⟩ block false
      { r.2 with wb := wbMarkDirty (setBuf r.2.wb r.1 v) r.1 }.store
    else { s with dev := blkdevWrite s.dev block [v] }

/-- `inode_write`: some bytes of a block of the inode table are replaced. -/
def blockPatch (s : Store β) (block : Nat) (f : β → β) : Store β :=
  match s.wb with
  | none => { s with dev := blkdevWrite s.dev block [f (s.dev block)] }
  | some wb =>
    if wb.persistent then
      let r := wbSlot ⟨s.dev, wb⟩ block true
      { r.2 with wb := wbMarkDirty (setBuf r.2.wb r.1 (f (r.2.wb.slots r.1).buf)) r.1 }.store
    else { s with dev := blkdevWrite s.dev block [f (s.dev block)] }

/-- `ext2_block_write_data` -/
def blockWriteData (s : Store β) (block : Nat) (v : β) : Store β :=
  let wb := s.wb.map fun wb =>
    let wb := raDrop wb
    match wbFind wb block with
    | none => wb
    | some i => wbMarkClean (setBuf wb i v) i
  ⟨blkdevWrite s.dev block [v], wb⟩

def runFlush (s : Store β) (start : Nat) (run : List β) : Store β :=
  if run.length = 0 then s
  else ⟨blkdevWrite s.dev start run, s.wb.map fun wb => raDrop (wbForget wb start run.length)⟩

end Cervus.Ext2
