import Cervus.Framework.Bytes
import Cervus.Framework.Word

/-! # Journal recovery

    The model of `jbd2_recover` of `fs/jbd2.c` and of the functions under it. The disk
    is an array of blocks; `ext2_bmap`, which finds the blocks of the journal file, is
    a parameter (it may depend on the disk, where the journal's inode lies).

    `jbd2_recover` runs when a file system is mounted, before the block cache exists
    and without a transaction: `ext2_block_read` is then a read of the device. Reads
    and writes of the device and allocations succeed. The loop of `jbd2_pass` has no
    bound of its own, so it gets fuel; no result means that it is still running.

    The states also keep the writes that were made to home blocks, in order: they say
    what a crash may leave behind. -/

namespace Cervus.Jbd2

/-! ## Section 1: Constants and headers -/

/-- The blocks of the device. -/
abbrev Disk := Nat → Bytes

def jbd2MagicNumber : Nat := 0xc03b3998

/-- `JBD2_DESCRIPTOR_BLOCK`, `JBD2_COMMIT_BLOCK`, `JBD2_REVOKE_BLOCK` -/
def descriptorBlock : Nat := 1

@[inherit_doc descriptorBlock] def commitBlock : Nat := 2

@[inherit_doc descriptorBlock] def revokeBlock : Nat := 5

/-- The flags of a tag: `JBD2_FLAG_ESCAPE`, `JBD2_FLAG_SAME_UUID`,
    `JBD2_FLAG_LAST_TAG`. -/
def flagEscape : Nat := 1

@[inherit_doc flagEscape] def flagSameUuid : Nat := 2

@[inherit_doc flagEscape] def flagLastTag : Nat := 8

/-- The features of a journal: `JBD2_FEATURE_INCOMPAT_REVOKE` and so on. -/
def incompatRevoke : Nat := 0x1

@[inherit_doc incompatRevoke] def incompat64bit : Nat := 0x2

@[inherit_doc incompatRevoke] def incompatCsumV2 : Nat := 0x8

@[inherit_doc incompatRevoke] def incompatCsumV3 : Nat := 0x10

/-- `EXT3_FEATURE_INCOMPAT_RECOVER` -/
def incompatRecover : Nat := 0x4

/-- `EXT2_SUPER_OFFSET`, which is also the size of the superblock. -/
def superOffset : Nat := 1024

/-- `sizeof(journal_header_t)` -/
def headerSize : Nat := 12

/-! ## Section 2: Revoked blocks -/

/-- `revoke_ent_t` -/
structure RevokeEnt where
  block : Nat
  seq   : Nat

def tidGeq (a b : Nat) : Bool := 0 ≤ i32 (sub32 a b)

def revSet (t : List RevokeEnt) (block seq : Nat) : List RevokeEnt :=
  match t with
  | [] => [⟨block, seq⟩]
  | e :: t =>
    if e.block = block then (if tidGeq seq e.seq then ⟨block, seq⟩ else e) :: t
    else e :: revSet t block seq

def revTest (t : List RevokeEnt) (block seq : Nat) : Bool :=
  match t.find? fun e => e.block = block with
  | some e => tidGeq e.seq seq
  | none => false

/-! ## Section 3: The log -/

def wrapb (b first maxlen : Nat) : Nat :=
  if maxlen ≤ b then sub32 b (sub32 maxlen first) else b

/-- `jctx_t`, with the block size of its file system. -/
structure JCtx where
  blockSize : Nat
  first     : Nat
  maxlen    : Nat
  tagBytes  : Nat
  csum3     : Bool
  is64      : Bool

def tagFlags (blk : Bytes) (tagp : Nat) (csum3 : Bool) : Nat :=
  if csum3 then be32 blk (tagp + 4) else be16 blk (tagp + 6)

def tagBlock (blk : Bytes) (tagp : Nat) (is64 : Bool) : Nat :=
  (if is64 then be32 blk (tagp + 8) else 0) * 2 ^ 32 + be32 blk tagp

/-- The loop of `scan_revoke`; every round moves on by at least 4 bytes. -/
def scanRevokeLoop (blk : Bytes) (count seq : Nat) (is64 : Bool) :
    Nat → Nat → List RevokeEnt → List RevokeEnt
  | 0, _, rev => rev
  | fuel + 1, off, rev =>
    let rsz := if is64 then 8 else 4
    if off + rsz ≤ count then
      let block := if is64 then be64 blk off else be32 blk off
      scanRevokeLoop blk count seq is64 fuel (off + rsz) (revSet rev block seq)
    else rev

def scanRevoke (blk : Bytes) (bs seq : Nat) (is64 : Bool) (rev : List RevokeEnt) :
    List RevokeEnt :=
  let count := be32 blk headerSize
  let count := if count > bs then bs else count
  scanRevokeLoop blk count seq is64 count (headerSize + 4) rev

inductive Pass where
  | scan
  | revoke
  | replay
  deriving DecidableEq

/-- The variables of `jbd2_pass`, the disk, and the writes made so far. -/
structure PassState where
  nextLog : Nat
  nextSeq : Nat
  rev     : List RevokeEnt
  disk    : Disk
  writes  : List (Nat × Bytes)

section Recovery

variable (bmap : Disk → Nat → Int)

def jbd2ReadLog (d : Disk) (jblk : Nat) : Option Bytes :=
  let phys := bmap d jblk
  if phys ≤ 0 then none else some (d phys.toNat)

def jbd2WriteLog (d : Disk) (jblk : Nat) (buf : Bytes) : Disk :=
  let phys := bmap d jblk
  if phys ≤ 0 then d else Function.update d phys.toNat buf

/-- What `PASS_REPLAY` does for one tag. -/
def replayTag (c : JCtx) (s : PassState) (tf blocknr : Nat) : PassState :=
  match jbd2ReadLog bmap s.disk s.nextLog with
  | none => s
  | some dbuf =>
    if revTest s.rev blocknr s.nextSeq then s
    else
      let dbuf := if tf &&& flagEscape ≠ 0 then putBe32 dbuf 0 jbd2MagicNumber else dbuf
      -- the byte offset is a multiple of the block size also when it wraps
      let block := u64 (blocknr * c.blockSize) / c.blockSize
      { s with disk := Function.update s.disk block dbuf,
               writes := s.writes ++ [(block, dbuf)] }

/-- The loop over the tags of a descriptor block; every round moves on by at least 8
    bytes. -/
def tagLoop (c : JCtx) (pass : Pass) (blk : Bytes) : Nat → Nat → PassState → PassState
  | 0, _, s => s
  | fuel + 1, tagp, s =>
    if tagp + c.tagBytes ≤ c.blockSize then
      let tf := tagFlags blk tagp c.csum3
      let blocknr := tagBlock blk tagp c.is64
      let s := if pass = .replay then replayTag bmap c s tf blocknr else s
      let s := { s with nextLog := wrapb (u32 (s.nextLog + 1)) c.first c.maxlen }
      let tagp := tagp + c.tagBytes
      let tagp := if tf &&& flagSameUuid = 0 then tagp + 16 else tagp
      if tf &&& flagLastTag ≠ 0 then s else tagLoop c pass blk fuel tagp s
    else s

/-- One round of the loop of `jbd2_pass`; no result for a `break`. -/
def passStep (c : JCtx) (pass : Pass) (endSeq : Nat) (s : PassState) : Option PassState :=
  if pass ≠ .scan ∧ tidGeq s.nextSeq endSeq then none
  else match jbd2ReadLog bmap s.disk s.nextLog with
    | none => none
    | some blk =>
      if be32 blk 0 ≠ jbd2MagicNumber then none
      else if be32 blk 8 ≠ s.nextSeq then none
      else
        let btype := be32 blk 4
        let s := { s with nextLog := wrapb (u32 (s.nextLog + 1)) c.first c.maxlen }
        if btype = descriptorBlock then some (tagLoop bmap c pass blk c.blockSize headerSize s)
        else if btype = commitBlock then some { s with nextSeq := u32 (s.nextSeq + 1) }
        else if btype = revokeBlock then
          if pass = .revoke then
            some { s with rev := scanRevoke blk c.blockSize s.nextSeq c.is64 s.rev }
          else some s
        else none

/-- The loop of `jbd2_pass`. -/
def passLoop (c : JCtx) (pass : Pass) (endSeq : Nat) : Nat → PassState → Option PassState
  | 0, _ => none
  | fuel + 1, s =>
    match passStep bmap c pass endSeq s with
    | none => some s
    | some s => passLoop c pass endSeq fuel s

/-- `jbd2_pass`, on a disk and with a revoke table. -/
def jbd2Pass (fuel : Nat) (c : JCtx) (pass : Pass) (start startSeq endSeq : Nat)
    (rev : List RevokeEnt) (disk : Disk) : Option PassState :=
  passLoop bmap c pass endSeq fuel ⟨start, startSeq, rev, disk, []⟩

/-! ## Section 4: Recovery -/

/-- The part of `ext2_t` that recovery uses. -/
structure Ext2 where
  disk            : Disk
  sb              : Bytes
  journalWritable : Bool

/-- `blkdev_write(fs->dev, EXT2_SUPER_OFFSET, &fs->sb, sizeof(fs->sb))` -/
def writeSuper (bs : Nat) (d : Disk) (sb : Bytes) : Disk := fun b i =>
  if i < bs ∧ superOffset ≤ b * bs + i ∧ b * bs + i < 2 * superOffset then
    sb (b * bs + i - superOffset)
  else d b i

/-- `s_feature_incompat` of the superblock. -/
def featureIncompat (sb : Bytes) : Nat := getLe 4 sb 96

/-- `fs->sb.s_feature_incompat &= ~EXT3_FEATURE_INCOMPAT_RECOVER` -/
def clearRecover (sb : Bytes) : Bytes :=
  putLe 4 sb 96 (featureIncompat sb &&& (2 ^ 32 - 1 - incompatRecover))

/-- `s_maxlen`, `s_first`, `s_sequence`, `s_start` and `s_feature_incompat` of
    `journal_superblock_t`. -/
def sMaxlen (jsb : Bytes) : Nat := be32 jsb 16

@[inherit_doc sMaxlen] def sFirst (jsb : Bytes) : Nat := be32 jsb 20

@[inherit_doc sMaxlen] def sSequence (jsb : Bytes) : Nat := be32 jsb 24

@[inherit_doc sMaxlen] def sStart (jsb : Bytes) : Nat := be32 jsb 28

@[inherit_doc sMaxlen] def sFeatureIncompat (jsb : Bytes) : Nat := be32 jsb 40

/-- The context that `jbd2_recover` sets up for the passes. -/
def jctxOf (bs : Nat) (jsb : Bytes) : JCtx where
  blockSize := bs
  first := sFirst jsb
  maxlen := sMaxlen jsb
  tagBytes :=
    if sFeatureIncompat jsb &&& incompatCsumV3 ≠ 0 then 16
    else if sFeatureIncompat jsb &&& incompat64bit ≠ 0 then 12 else 8
  csum3 := sFeatureIncompat jsb &&& incompatCsumV3 ≠ 0
  is64 := sFeatureIncompat jsb &&& incompat64bit ≠ 0

/-- The result of `jbd2_recover`, and the writes to home blocks before the journal
    superblock was rewritten. -/
structure Recovered where
  ret    : Int
  fs     : Ext2
  writes : List (Nat × Bytes)

/-- The end of `jbd2_recover`: the log is empty from here on. -/
def finish (bs : Nat) (fs : Ext2) (jsb : Bytes) (endSeq : Nat) (s : PassState) : Recovered :=
  let jsb := putBe32 (putBe32 jsb 28 0) 24 endSeq
  let disk := jbd2WriteLog bmap s.disk 0 jsb
  let sb := clearRecover fs.sb
  ⟨1, { fs with disk := writeSuper bs disk sb, sb }, s.writes⟩

def jbd2Recover (fuel bs : Nat) (fs : Ext2) : Option Recovered :=
  match jbd2ReadLog bmap fs.disk 0 with
  | none => some ⟨-5, fs, []⟩
  | some jsb =>
    if be32 jsb 0 ≠ jbd2MagicNumber then some ⟨0, fs, []⟩
    else
      let fs := { fs with
        journalWritable := sFeatureIncompat jsb &&& (2 ^ 32 - 1 - incompatRevoke) = 0 }
      if sStart jsb = 0 then
        if featureIncompat fs.sb &&& incompatRecover ≠ 0 then
          let sb := clearRecover fs.sb
          some ⟨0, { fs with sb, disk := writeSuper bs fs.disk sb }, []⟩
        else some ⟨0, fs, []⟩
      else
        let c := jctxOf bs jsb
        match jbd2Pass bmap fuel c .scan (sStart jsb) (sSequence jsb) 0 [] fs.disk with
        | none => none
        | some s₁ =>
          match jbd2Pass bmap fuel c .revoke (sStart jsb) (sSequence jsb) s₁.nextSeq [] s₁.disk with
          | none => none
          | some s₂ =>
            match jbd2Pass bmap fuel c .replay (sStart jsb) (sSequence jsb) s₁.nextSeq s₂.rev
              s₂.disk with
            | none => none
            | some s₃ => some (finish bmap bs fs jsb s₁.nextSeq s₃)

end Recovery

end Cervus.Jbd2
