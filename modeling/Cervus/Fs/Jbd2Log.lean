import Cervus.Framework.Writes
import Cervus.Fs.Jbd2

/-! # Logs and what they mean

    The abstract side of journal recovery: what a log is, what its replay should leave
    on the disk, and how it is written in the blocks of the journal file.

    A log is a list of committed transactions and the beginning of one that was not
    committed. A transaction writes blocks and revokes blocks; a write counts if no
    record of the same or of a later committed transaction revokes its block
    (`Log.live`), and of the writes to a block that count the last one is what the block
    should hold (`Log.lastWrite`).

    `WellFormed` says that the journal on a disk holds a log: which blocks follow each
    other in the circular area, what their headers and tags say, and where the log
    ends. -/

namespace Cervus.Jbd2

open Cervus.Writes

/-! ## Section 1: Logs -/

/-- A descriptor block with the blocks that it describes, or a revoke block. -/
inductive Record where
  | descriptor (ws : List (Nat × Bytes))
  | revoke (blocks : List Nat)

def Record.writes : Record → List (Nat × Bytes)
  | .descriptor ws => ws
  | .revoke _ => []

def Record.revokes : Record → List Nat
  | .descriptor _ => []
  | .revoke blocks => blocks

/-- The number of blocks of the log that a record takes. -/
def Record.size : Record → Nat
  | .descriptor ws => ws.length + 1
  | .revoke _ => 1

abbrev Transaction := List Record

/-- The committed transactions, in order, and the records of the one that was not. -/
structure Log where
  committed : List Transaction
  tail      : Transaction

/-- What the records of transactions have, each with the number of its transaction. -/
def numbered {α : Type} (f : Record → List α) : Nat → List Transaction → List (Nat × α)
  | _, [] => []
  | i, t :: ts => ((t.flatMap f).map fun x => (i, x)) ++ numbered f (i + 1) ts

def writesFrom : Nat → List Transaction → List (Nat × Nat × Bytes) := numbered Record.writes

def revokesFrom : Nat → List Transaction → List (Nat × Nat) := numbered Record.revokes

/-- A write of transaction `i` to block `b` is revoked by a record of the same
    transaction or of a later one. -/
def Log.revoked (log : Log) (i b : Nat) : Bool :=
  (revokesFrom 0 log.committed).any fun r => r.2 == b && i ≤ r.1

/-- The committed writes that are not revoked, in log order. -/
def Log.live (log : Log) : List (Nat × Bytes) :=
  ((writesFrom 0 log.committed).filter fun w => !log.revoked w.1 w.2.1).map Prod.snd

/-- What a block should hold after recovery, if the log says anything about it. -/
def Log.lastWrite (log : Log) (b : Nat) : Option Bytes := last log.live b

/-- The number of blocks of a log. -/
def Log.length (log : Log) : Nat :=
  (log.committed.map fun t => (t.map Record.size).sum + 1).sum + (log.tail.map Record.size).sum

/-! ## Section 2: Logs on disk -/

/-- The block after `p` in the circular area. -/
def JCtx.succ (c : JCtx) (p : Nat) : Nat := if p + 1 = c.maxlen then c.first else p + 1

/-- `tag_bytes`: a tag of the third version, or an older one with or without the upper half
    of the block number. -/
def tagSize (csum3 is64 : Bool) : Nat := if csum3 then 16 else if is64 then 12 else 8

/-- The header of a block of the log. -/
structure Header (blk : Bytes) (btype seq : Nat) : Prop where
  magic : be32 blk 0 = jbd2MagicNumber
  btype : be32 blk 4 = btype
  seq   : be32 blk 8 = seq

/-- A tag at an offset of a descriptor block. -/
structure TagAt (c : JCtx) (blk : Bytes) (off b : Nat) (escape sameUuid lastTag : Bool) :
    Prop where
  fits     : off + tagSize c.csum3 c.is64 ≤ c.blockSize
  block    : be32 blk off = b % 2 ^ 32
  high     : if c.is64 then be32 blk (off + 8) = b / 2 ^ 32 else b < 2 ^ 32
  escape   : (tagFlags blk off c.csum3).testBit 0 = escape
  sameUuid : (tagFlags blk off c.csum3).testBit 1 = sameUuid
  lastTag  : (tagFlags blk off c.csum3).testBit 3 = lastTag

/-- The copy of a block in the log: a block that begins with the magic number is
    escaped, its first four bytes are replaced. -/
def Stored (escape : Bool) (copy data : Bytes) : Prop :=
  if escape then be32 data 0 = jbd2MagicNumber ∧ ∀ i, 4 ≤ i → copy i = data i else copy = data

/-- Tags from an offset of a descriptor block on, and the blocks that they describe,
    which follow in the log from `p` up to `p'`. The 16 bytes of a UUID come after a tag
    that is not marked to have the same one. -/
inductive TagsAt (c : JCtx) (rd : Nat → Bytes) (blk : Bytes) :
    Nat → Nat → List (Nat × Bytes) → Nat → Prop where
  | last {off p b : Nat} {data : Bytes} {escape sameUuid : Bool} :
      TagAt c blk off b escape sameUuid true → Stored escape (rd p) data →
      TagsAt c rd blk off p [(b, data)] (c.succ p)
  | cons {off p p' b : Nat} {data : Bytes} {escape sameUuid : Bool} {ws : List (Nat × Bytes)} :
      TagAt c blk off b escape sameUuid false → Stored escape (rd p) data →
      TagsAt c rd blk (off + tagSize c.csum3 c.is64 + if sameUuid then 0 else 16) (c.succ p) ws p' →
      TagsAt c rd blk off p ((b, data) :: ws) p'

/-- The block numbers of a revoke block take 8 or 4 bytes each. -/
def revokeSize (is64 : Bool) : Nat := if is64 then 8 else 4

/-- The contents of a revoke block: its length in bytes, then the block numbers. -/
structure RevokesAt (c : JCtx) (blk : Bytes) (blocks : List Nat) : Prop where
  count   : be32 blk headerSize = headerSize + 4 + revokeSize c.is64 * blocks.length
  fits    : headerSize + 4 + revokeSize c.is64 * blocks.length ≤ c.blockSize
  entries : ∀ i b, blocks[i]? = some b →
    (if c.is64 then be64 blk (headerSize + 4 + revokeSize c.is64 * i)
      else be32 blk (headerSize + 4 + revokeSize c.is64 * i)) = b

/-- A record of transaction `seq` at `p`; the next one is at `p'`. -/
inductive RecordAt (c : JCtx) (rd : Nat → Bytes) (seq : Nat) : Nat → Record → Nat → Prop where
  | descriptor {p p' : Nat} {ws : List (Nat × Bytes)} :
      Header (rd p) descriptorBlock seq → TagsAt c rd (rd p) headerSize (c.succ p) ws p' →
      RecordAt c rd seq p (.descriptor ws) p'
  | revoke {p : Nat} {blocks : List Nat} :
      Header (rd p) revokeBlock seq → RevokesAt c (rd p) blocks →
      RecordAt c rd seq p (.revoke blocks) (c.succ p)

inductive RecordsAt (c : JCtx) (rd : Nat → Bytes) (seq : Nat) :
    Nat → List Record → Nat → Prop where
  | nil {p : Nat} : RecordsAt c rd seq p [] p
  | cons {p p₁ p₂ : Nat} {r : Record} {rs : List Record} :
      RecordAt c rd seq p r p₁ → RecordsAt c rd seq p₁ rs p₂ → RecordsAt c rd seq p (r :: rs) p₂

/-- Committed transactions, numbered from `i` on; their sequence numbers count from
    `q` and wrap. -/
inductive CommittedAt (c : JCtx) (rd : Nat → Bytes) (q : Nat) :
    Nat → Nat → List Transaction → Nat → Prop where
  | nil {i p : Nat} : CommittedAt c rd q i p [] p
  | cons {i p p₁ p₂ : Nat} {t : Transaction} {ts : List Transaction} :
      RecordsAt c rd (serial q i) p t p₁ → Header (rd p₁) commitBlock (serial q i) →
      CommittedAt c rd q (i + 1) (c.succ p₁) ts p₂ → CommittedAt c rd q i p (t :: ts) p₂

/-- The block after the log is not part of it. -/
def LogEnd (blk : Bytes) (seq : Nat) : Prop :=
  ¬ ∃ btype, Header blk btype seq ∧
    (btype = descriptorBlock ∨ btype = commitBlock ∨ btype = revokeBlock)

/-- The log in the circular area, from `start` on. -/
structure Placed (c : JCtx) (rd : Nat → Bytes) (q start : Nat) (log : Log) : Prop where
  first_le  : c.first ≤ start
  start_lt  : start < c.maxlen
  fits      : log.length ≤ c.maxlen - c.first
  blocks    : ∃ p p', CommittedAt c rd q 0 start log.committed p ∧
    RecordsAt c rd (serial q log.committed.length) p log.tail p' ∧
    LogEnd (rd p') (serial q log.committed.length)

/-! ## Section 3: Well-formed journals -/

section WellFormed

variable (bmap : Disk → Nat → Int)

/-- A block of the journal file. -/
def logBlock (d : Disk) (j : Nat) : Bytes := d (bmap d j).toNat

/-- The blocks of the journal file that recovery may look at. -/
def InJournal (d : Disk) (j : Nat) : Prop := j = 0 ∨ j < sMaxlen (logBlock bmap d 0)

/-- The disk has a journal with this log:

    * its blocks are distinct blocks of the disk, and the block map of the journal file
      is the same in all versions that the log has of the file system's blocks;
    * its superblock says where the log starts, if there is one; the tags are not those
      of the second version of checksums;
    * no block that the log writes is part of the journal. -/
structure WellFormed (bs : Nat) (d : Disk) (log : Log) : Prop where
  blockSize : superOffset ≤ bs
  mapped    : ∀ j, InJournal bmap d j → 0 < bmap d j ∧ bmap d j < 2 ^ 31
  distinct  : ∀ i j, InJournal bmap d i → InJournal bmap d j → bmap d i = bmap d j → i = j
  stable    : ∀ d', Torn d log.live d' → ∀ j, InJournal bmap d j → bmap d' j = bmap d j
  magic     : be32 (logBlock bmap d 0) 0 = jbd2MagicNumber
  noCsumV2  : sFeatureIncompat (logBlock bmap d 0) &&& incompatCsumV2 = 0
  home      : ∀ w ∈ writesFrom 0 log.committed, w.2.1 * bs < 2 ^ 64 ∧
    ∀ j, InJournal bmap d j → (w.2.1 : Int) ≠ bmap d j
  placed    : (sStart (logBlock bmap d 0) = 0 ∧ log = ⟨[], []⟩) ∨
    (sStart (logBlock bmap d 0) ≠ 0 ∧
      Placed (jctxOf bs (logBlock bmap d 0)) (logBlock bmap d) (sSequence (logBlock bmap d 0))
        (sStart (logBlock bmap d 0)) log)

end WellFormed

end Cervus.Jbd2
