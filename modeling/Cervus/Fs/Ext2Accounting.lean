import Cervus.Fs.Ext2
import Cervus.Fs.WriteBackCoherence
import Mathlib.Algebra.Order.BigOperators.Group.Finset

/-! # Accounting of blocks and inodes

    A ledger has, for every group, the numbers that are free and a count of them, and a
    total. The two bitmaps of ext2 with the counts in the group descriptors and in the
    superblock are ledgers; every allocation and every free is one entry in one of them.

    The counts in descriptors have 16 bits and allocations return an `int32_t`, so all of
    this holds on volumes of at most `2 ^ 31` blocks with groups of fewer than `2 ^ 16`,
    whose bitmaps fit into one block: `ext2_mount` does not check that they do. -/

namespace Cervus.Ext2

open Bitmap Function Nat Finset

/-! ## Section 1: Ledgers -/

/-- The counts of free numbers in the groups below `G`, and their total. -/
structure Balanced (G : Nat) (free : Nat → Finset Nat) (count : Nat → Nat) (total : Nat) :
    Prop where
  counts : ∀ g, g < G → count g = (free g).card
  sum    : total = ∑ g ∈ Finset.range G, count g

section Ledger

variable {G g i : Nat} {free : Nat → Finset Nat} {count : Nat → Nat} {total : Nat}

/-- One number is taken. -/
theorem Balanced.take (h : Balanced G free count total) (hg : g < G) (hi : i ∈ free g) :
    Balanced G (update free g ((free g).erase i))
      (update count g (dec16 (count g))) (dec32 total) := by
  have hcard := card_erase_of_mem hi
  have hpos := Finset.card_pos.mpr ⟨i, hi⟩
  have hc := h.counts g hg
  have hdec : dec16 (count g) = count g - 1 := by
    unfold dec16
    rw [if_neg (by omega)]
  refine ⟨?_, ?_⟩
  · intro k hk
    by_cases hkg : k = g
    · rw [hkg, update_self, update_self, hdec, hcard, hc]
    · rw [update_of_ne hkg, update_of_ne hkg]
      exact h.counts k hk
  have hsum := sum_update count (mem_range.mpr hg) (dec16 (count g))
  have ht := h.sum
  unfold dec32
  rw [if_neg (by omega)]
  omega

/-- One number is given back. -/
theorem Balanced.give (h : Balanced G free count total) (hg : g < G) (hi : i ∉ free g)
    (hcount : count g + 1 < 2 ^ 16) (htotal : total + 1 < 2 ^ 32) :
    Balanced G (update free g (insert i (free g)))
      (update count g (inc16 (count g))) (inc32 total) := by
  have hcard := card_insert_of_notMem hi
  have hc := h.counts g hg
  have hinc : inc16 (count g) = count g + 1 := by
    unfold inc16 u16
    omega
  refine ⟨?_, ?_⟩
  · intro k hk
    by_cases hkg : k = g
    · rw [hkg, update_self, update_self, hinc, hcard, hc]
    · rw [update_of_ne hkg, update_of_ne hkg]
      exact h.counts k hk
  have hsum := sum_update count (mem_range.mpr hg) (inc16 (count g))
  have ht := h.sum
  unfold inc32 u32
  omega

theorem Balanced.congr {free' : Nat → Finset Nat} {count' : Nat → Nat} {total' : Nat}
    (h : Balanced G free count total) (hfree : ∀ k, k < G → free' k = free k)
    (hcount : ∀ k, k < G → count' k = count k) (htotal : total' = total) :
    Balanced G free' count' total' := by
  refine ⟨?_, ?_⟩
  · intro k hk
    rw [hfree k hk, hcount k hk]
    exact h.counts k hk
  rw [htotal, h.sum]
  apply sum_congr rfl
  intro k hk
  rw [hcount k (mem_range.mp hk)]

end Ledger

/-! ### Numbers in groups -/

/-- The members of group `g` when the numbers below `N` are put in groups of `n`. -/
def members (n N g : Nat) : Finset Nat := (Finset.range n).filter fun i => g * n + i < N

variable {n N g i : Nat} {fs fs' : Fs}

theorem mem_members : i ∈ members n N g ↔ i < n ∧ g * n + i < N := by
  unfold members
  rw [mem_filter, mem_range]

theorem card_members_le (n N g : Nat) :
    (members n N g).card ≤ n ∧ (members n N g).card ≤ N - g * n := by
  constructor
  · have := card_filter_le (Finset.range n) fun i => g * n + i < N
    rwa [card_range] at this
  have hsub : members n N g ⊆ Finset.range (N - g * n) := by
    intro i hi
    have := (mem_members.mp hi).2
    rw [mem_range]
    omega
  have := card_le_card hsub
  rwa [card_range] at this

/-- All groups together have no more than `N` members. -/
theorem sum_card_members_le (n N G : Nat) : ∑ g ∈ Finset.range G, (members n N g).card ≤ N := by
  have hboth : ∑ g ∈ Finset.range G, (members n N g).card ≤ G * n ∧
      ∑ g ∈ Finset.range G, (members n N g).card ≤ N := by
    induction G with
    | zero => simp
    | succ G ih =>
      rw [sum_range_succ, succ_mul]
      obtain ⟨h1, h2⟩ := card_members_le n N G
      omega
  exact hboth.2

section Total

variable {G total : Nat} {free : Nat → Finset Nat} {count : Nat → Nat}

theorem Balanced.total_le (h : Balanced G free count total) (hsub : ∀ g, free g ⊆ members n N g) :
    total ≤ N := by
  calc total
    _ = ∑ g ∈ Finset.range G, count g := h.sum
    _ ≤ ∑ g ∈ Finset.range G, (members n N g).card := by
      apply sum_le_sum
      intro g hg
      rw [h.counts g (mem_range.mp hg)]
      exact card_le_card (hsub g)
    _ ≤ N := sum_card_members_le n N G

/-- A group with a number in use is not all free. -/
theorem Balanced.count_lt (h : Balanced G free count total) (hg : g < G)
    (hsub : free g ⊆ members n N g) (hi : i ∈ members n N g) (hused : i ∉ free g) :
    count g < n := by
  have hlt : (free g).card < (members n N g).card :=
    card_lt_card ⟨hsub, fun hback => hused (hback hi)⟩
  rw [h.counts g hg]
  exact Nat.lt_of_lt_of_le hlt (card_members_le n N g).1

end Total

/-! ## Section 2: The ledgers of a file system -/

/-- The bits of a group's block bitmap that stand for blocks of the volume. -/
def validBlocks (sb : Superblock) (g : Nat) : Finset Nat :=
  members sb.blocksPerGroup (sb.blocksCount - sb.firstDataBlock) g

/-- The bits of a group's inode bitmap that stand for inodes. -/
def validInodes (sb : Superblock) (g : Nat) : Finset Nat :=
  members sb.inodesPerGroup sb.inodesCount g

/-- The blocks that are free in a group, by their bits. -/
def freeBlocks (fs : Fs) (g : Nat) : Finset Nat :=
  clearBits (validBlocks fs.sb g) (fs.store.content (fs.gdt g).blockBitmap)

/-- The inodes that are free in a group, by their bits. -/
def freeInodes (fs : Fs) (g : Nat) : Finset Nat :=
  clearBits (validInodes fs.sb g) (fs.store.content (fs.gdt g).inodeBitmap)

/-- A file system as `ext2_mount` has it; every group has its own two bitmaps. -/
structure Mounted (fs : Fs) : Prop where
  store         : fs.store.Ok
  groups        : fs.groupsCount =
    u32 (fs.sb.blocksCount + fs.sb.blocksPerGroup - 1) / fs.sb.blocksPerGroup
  groups_ne     : fs.groupsCount ≠ 0
  blocksCount   : fs.sb.blocksCount < 2 ^ 32
  perGroup      : fs.sb.blocksPerGroup < 2 ^ 32
  blockBitmaps  : ∀ g g', g < fs.groupsCount → g' < fs.groupsCount →
    (fs.gdt g).blockBitmap = (fs.gdt g').blockBitmap → g = g'
  inodeBitmaps  : ∀ g g', g < fs.groupsCount → g' < fs.groupsCount →
    (fs.gdt g).inodeBitmap = (fs.gdt g').inodeBitmap → g = g'
  bitmaps_apart : ∀ g g', g < fs.groupsCount → g' < fs.groupsCount →
    (fs.gdt g).blockBitmap ≠ (fs.gdt g').inodeBitmap

/-- Bitmaps and counters agree. -/
structure Agrees (fs : Fs) : Prop where
  blocks : Balanced fs.groupsCount (freeBlocks fs) (fun g => (fs.gdt g).freeBlocksCount)
    fs.sb.freeBlocksCount
  inodes : Balanced fs.groupsCount (freeInodes fs) (fun g => (fs.gdt g).freeInodesCount)
    fs.sb.freeInodesCount

/-- The volumes on which the counters and the return values suffice, and the bitmap of a group
    fits into the buffer of a block. -/
structure Small (fs : Fs) : Prop where
  blocks         : fs.sb.blocksCount ≤ 2 ^ 31
  inodes         : fs.sb.inodesCount < 2 ^ 31
  blocksPerGroup : fs.sb.blocksPerGroup < 2 ^ 16
  inodesPerGroup : fs.sb.inodesPerGroup < 2 ^ 16
  blockBits      : fs.sb.blocksPerGroup ≤ 8 * fs.blockSize
  inodeBits      : fs.sb.inodesPerGroup ≤ 8 * fs.blockSize

section Counters

variable {fs : Fs} {g : Nat}

theorem Mounted.perGroup_pos (h : Mounted fs) : 0 < fs.sb.blocksPerGroup := by
  have hne := h.groups_ne
  rw [h.groups] at hne
  by_contra hz
  have : fs.sb.blocksPerGroup = 0 := by omega
  rw [this, Nat.div_zero] at hne
  exact hne rfl

/-- The number of groups did not wrap. -/
theorem Mounted.no_wrap (h : Mounted fs) : fs.sb.blocksCount + fs.sb.blocksPerGroup ≤ 2 ^ 32 ∧
      fs.groupsCount = (fs.sb.blocksCount + fs.sb.blocksPerGroup - 1) / fs.sb.blocksPerGroup := by
  have hle : fs.sb.blocksCount + fs.sb.blocksPerGroup ≤ 2 ^ 32 := by
    by_contra hgt
    have hne := h.groups_ne
    have hb := h.blocksCount
    rw [h.groups] at hne
    apply hne
    apply div_eq_of_lt
    unfold u32
    omega
  refine ⟨hle, ?_⟩
  rw [h.groups, u32_of_lt (by omega)]

theorem Mounted.groups_le (h : Mounted fs) (hs : Small fs) : 2 * fs.groupsCount ≤ 2 ^ 32 := by
  have hb := hs.blocks
  have hle : fs.groupsCount ≤ fs.sb.blocksCount := by
    rw [h.no_wrap.2, div_le_iff_le_mul_add_pred h.perGroup_pos]
    have := Nat.le_mul_of_pos_left fs.sb.blocksCount h.perGroup_pos
    omega
  omega

theorem Mounted.group_lt (h : Mounted fs) {n : Nat} (hn : n < fs.sb.blocksCount) :
    n / fs.sb.blocksPerGroup < fs.groupsCount := by
  have hpos := h.perGroup_pos
  rw [h.no_wrap.2]
  rw [Nat.div_lt_iff_lt_mul hpos]
  have hceil := lt_div_mul_add (a := fs.sb.blocksCount + fs.sb.blocksPerGroup - 1) hpos
  omega

end Counters

/-! ## Section 3: Searching a bitmap -/

section Search

variable {sb : Superblock} {bmp : Bytes} {g : Nat}

variable {i count : Nat}

theorem absBlock_eq (hwrap : g * sb.blocksPerGroup + sb.blocksPerGroup + sb.firstDataBlock ≤ 2 ^ 32)
    (hi : i < sb.blocksPerGroup) :
    absBlock sb g i = g * sb.blocksPerGroup + i + sb.firstDataBlock := u32_of_lt (by omega)

/-- What a search from bit `i` on finds is free. If it finds none, there is none from there
    on. -/
def Scanned (free : Finset Nat) (i : Nat) : Option Nat → Prop
  | some j => j ∈ free
  | none => ∀ j ∈ free, j < i

theorem scanBlocks_spec
    (hwrap : g * sb.blocksPerGroup + sb.blocksPerGroup + sb.firstDataBlock ≤ 2 ^ 32) {fuel i : Nat}
    (hfuel : sb.blocksPerGroup ≤ fuel + i) :
    Scanned (clearBits (validBlocks sb g) bmp) i (scanBlocks sb bmp g fuel i) := by
  induction fuel generalizing i with
  | zero =>
    intro j hj
    have := (mem_members.mp (mem_clearBits.mp hj).1).1
    omega
  | succ fuel ih =>
    -- a search that starts later passes over set bits only
    have hlater : ∀ n, 0 < n → (∀ j, i ≤ j → j < i + n → test bmp j = true) →
        Scanned (clearBits (validBlocks sb g) bmp) i (scanBlocks sb bmp g fuel (i + n)) := by
      intro n hn hset
      have h := ih (i := i + n) (by omega)
      cases hscan : scanBlocks sb bmp g fuel (i + n) with
      | some j =>
        rw [hscan] at h
        exact h
      | none =>
        rw [hscan] at h
        intro j hj
        by_contra hge
        have hclear := (mem_clearBits.mp hj).2
        rw [hset j (by omega) (h j hj)] at hclear
        cases hclear
    unfold scanBlocks
    by_cases hi : i < sb.blocksPerGroup
    · rw [if_pos hi]
      by_cases hskip : i % 8 = 0 ∧ bmp (i / 8) = 0xFF ∧ i + 8 ≤ sb.blocksPerGroup
      · rw [if_pos hskip]
        refine hlater 8 (by decide) fun j hlo hhi => test_of_full ?_
        rw [show j / 8 = i / 8 by omega]
        exact hskip.2.1
      rw [if_neg hskip]
      by_cases hend : sb.blocksCount ≤ absBlock sb g i
      · rw [if_pos hend]
        rw [absBlock_eq hwrap hi] at hend
        intro j hj
        have := (mem_members.mp (mem_clearBits.mp hj).1).2
        omega
      rw [if_neg hend]
      cases htest : test bmp i with
      | true => exact hlater 1 (by decide) fun j hlo hhi => by rw [show j = i by omega, htest]
      | false =>
        rw [absBlock_eq hwrap hi] at hend
        exact mem_clearBits.mpr ⟨mem_members.mpr ⟨hi, by omega⟩, htest⟩
    rw [if_neg hi]
    intro j hj
    have := (mem_members.mp (mem_clearBits.mp hj).1).1
    omega

theorem scanInodes_some (h : scanInodes bmp count = some i) :
    i < count ∧ test bmp i = false ∧ ∀ j < i, test bmp j = true := by
  obtain ⟨htest, k, hk, hget, hbefore⟩ := List.find?_eq_some_iff_getElem.mp h
  rw [List.getElem_range] at hget
  rw [List.length_range] at hk
  subst hget
  refine ⟨hk, by simpa using htest, ?_⟩
  intro j hj
  have := hbefore j hj
  simpa using this

theorem scanInodes_none (h : scanInodes bmp count = none) : ∀ i < count, test bmp i = true := by
  intro i hi
  have := List.find?_eq_none.mp h i (List.mem_range.mpr hi)
  simpa using this

end Search

/-! ## Section 4: What the operations do -/

/-- What no allocation or free changes. -/
structure SameLayout (fs fs' : Fs) : Prop where
  blockSize       : fs'.blockSize = fs.blockSize
  groupsCount     : fs'.groupsCount = fs.groupsCount
  inodeSize       : fs'.inodeSize = fs.inodeSize
  inodesCount     : fs'.sb.inodesCount = fs.sb.inodesCount
  blocksCount     : fs'.sb.blocksCount = fs.sb.blocksCount
  firstDataBlock  : fs'.sb.firstDataBlock = fs.sb.firstDataBlock
  blocksPerGroup  : fs'.sb.blocksPerGroup = fs.sb.blocksPerGroup
  inodesPerGroup  : fs'.sb.inodesPerGroup = fs.sb.inodesPerGroup
  hasCsum         : fs'.sb.hasCsum = fs.sb.hasCsum
  blockBitmap     : ∀ g, (fs'.gdt g).blockBitmap = (fs.gdt g).blockBitmap
  inodeBitmap     : ∀ g, (fs'.gdt g).inodeBitmap = (fs.gdt g).inodeBitmap
  inodeTable      : ∀ g, (fs'.gdt g).inodeTable = (fs.gdt g).inodeTable

theorem SameLayout.setStore (fs : Fs) (store : Store Bytes) : SameLayout fs (fs.setStore store) :=
  ⟨rfl, rfl, rfl, rfl, rfl, rfl, rfl, rfl, rfl, fun _ => rfl, fun _ => rfl, fun _ => rfl⟩

theorem Mounted.same (h : Mounted fs) (hl : SameLayout fs fs') (hok : fs'.store.Ok) :
    Mounted fs' where
  store := hok
  groups := by rw [hl.groupsCount, hl.blocksCount, hl.blocksPerGroup]; exact h.groups
  groups_ne := by rw [hl.groupsCount]; exact h.groups_ne
  blocksCount := by rw [hl.blocksCount]; exact h.blocksCount
  perGroup := by rw [hl.blocksPerGroup]; exact h.perGroup
  blockBitmaps g g' := by
    rw [hl.groupsCount, hl.blockBitmap, hl.blockBitmap]
    exact h.blockBitmaps g g'
  inodeBitmaps g g' := by
    rw [hl.groupsCount, hl.inodeBitmap, hl.inodeBitmap]
    exact h.inodeBitmaps g g'
  bitmaps_apart g g' := by
    rw [hl.groupsCount, hl.blockBitmap, hl.inodeBitmap]
    exact h.bitmaps_apart g g'

/-- A block number of the volume. -/
def VolumeBlock (fs : Fs) (b : Nat) : Prop := fs.sb.firstDataBlock ≤ b ∧ b < fs.sb.blocksCount

/-- The bit of a block is set. -/
def BlockUsed (fs : Fs) (b : Nat) : Prop :=
  test (fs.store.content (fs.gdt ((b - fs.sb.firstDataBlock) / fs.sb.blocksPerGroup)).blockBitmap)
    ((b - fs.sb.firstDataBlock) % fs.sb.blocksPerGroup) = true

/-- An inode number of the volume. -/
def VolumeInode (fs : Fs) (ino : Nat) : Prop :=
  1 ≤ ino ∧ ino ≤ fs.sb.inodesCount ∧ (ino - 1) / fs.sb.inodesPerGroup < fs.groupsCount ∧
    0 < fs.sb.inodesPerGroup

/-- The bit of an inode is set. -/
def InodeUsed (fs : Fs) (ino : Nat) : Prop :=
  test (fs.store.content (fs.gdt ((ino - 1) / fs.sb.inodesPerGroup)).inodeBitmap)
    ((ino - 1) % fs.sb.inodesPerGroup) = true

/-- An entry in one of the two ledgers: of a bitmap, bit `i` is changed to `v`. -/
structure Entry (bitmap : GroupDesc → Nat) (fs fs' : Fs) (g i : Nat) (v : Bool) : Prop where
  layout  : SameLayout fs fs'
  ok      : fs'.store.Ok
  other   : ∀ b, b ≠ bitmap (fs.gdt g) → fs'.store.content b = fs.store.content b
  bits    : ∀ j, test (fs'.store.content (bitmap (fs.gdt g))) j =
    if j = i then v else test (fs.store.content (bitmap (fs.gdt g))) j
  synced  : ∀ b, b ≠ bitmap (fs.gdt g) → fs.store.Synced b → fs'.store.Synced b

/-! ### The two ledgers as one -/

/-- Which of the two ledgers. -/
inductive Ledger where
  | blocks
  | inodes

namespace Ledger

def bitmap : Ledger → GroupDesc → Nat
  | blocks => GroupDesc.blockBitmap
  | inodes => GroupDesc.inodeBitmap

def count : Ledger → GroupDesc → Nat
  | blocks => GroupDesc.freeBlocksCount
  | inodes => GroupDesc.freeInodesCount

def total : Ledger → Superblock → Nat
  | blocks => Superblock.freeBlocksCount
  | inodes => Superblock.freeInodesCount

def perGroup : Ledger → Superblock → Nat
  | blocks => Superblock.blocksPerGroup
  | inodes => Superblock.inodesPerGroup

/-- How many numbers there are, and the first one. -/
def limit : Ledger → Superblock → Nat
  | blocks => fun sb => sb.blocksCount - sb.firstDataBlock
  | inodes => Superblock.inodesCount

@[inherit_doc limit] def first : Ledger → Superblock → Nat
  | blocks => Superblock.firstDataBlock
  | inodes => fun _ => 1

def valid (k : Ledger) (sb : Superblock) (g : Nat) : Finset Nat :=
  members (k.perGroup sb) (k.limit sb) g

def free (k : Ledger) (fs : Fs) (g : Nat) : Finset Nat :=
  clearBits (k.valid fs.sb g) (fs.store.content (k.bitmap (fs.gdt g)))

/-- The number of bit `i` of group `g`. -/
def number (k : Ledger) (sb : Superblock) (g i : Nat) : Nat := g * k.perGroup sb + i + k.first sb

def group (k : Ledger) (sb : Superblock) (n : Nat) : Nat := (n - k.first sb) / k.perGroup sb

def bit (k : Ledger) (sb : Superblock) (n : Nat) : Nat := (n - k.first sb) % k.perGroup sb

/-- The bit of a number is set. -/
def Used (k : Ledger) (fs : Fs) (n : Nat) : Prop :=
  test (fs.store.content (k.bitmap (fs.gdt (k.group fs.sb n)))) (k.bit fs.sb n) = true

/-- A number of the volume. -/
structure Has (k : Ledger) (fs : Fs) (n : Nat) : Prop where
  first : k.first fs.sb ≤ n
  limit : n - k.first fs.sb < k.limit fs.sb
  group : k.group fs.sb n < fs.groupsCount
  pos   : 0 < k.perGroup fs.sb

end Ledger

section Ledgers

variable {k k' : Ledger} {j n : Nat} {v : Bool}

theorem volumeBlock_iff (hm : Mounted fs) (b : Nat) :
    VolumeBlock fs b ↔ Ledger.blocks.Has fs b := by
  refine ⟨fun h => ⟨h.1, Nat.sub_lt_sub_right h.1 h.2, hm.group_lt ?_, hm.perGroup_pos⟩,
    fun h => ?_⟩
  · exact Nat.lt_of_le_of_lt (sub_le _ _) h.2
  have hfirst := h.first
  have hlimit := h.limit
  simp only [Ledger.first, Ledger.limit] at hfirst hlimit
  exact ⟨hfirst, by omega⟩

theorem volumeInode_iff (ino : Nat) : VolumeInode fs ino ↔ Ledger.inodes.Has fs ino := by
  refine ⟨fun h => ⟨h.1, ?_, h.2.2.1, h.2.2.2⟩, fun h => ⟨h.first, ?_, h.group, h.pos⟩⟩
  · exact Nat.lt_of_lt_of_le (sub_lt h.1 Nat.one_pos) h.2.1
  have hfirst := h.first
  have hlimit := h.limit
  simp only [Ledger.first, Ledger.limit] at hfirst hlimit
  omega

theorem Mounted.bitmap_inj (hm : Mounted fs) (k : Ledger) (hg : g < fs.groupsCount)
    (hj : j < fs.groupsCount) (h : k.bitmap (fs.gdt g) = k.bitmap (fs.gdt j)) : g = j := by
  cases k with
  | blocks => exact hm.blockBitmaps g j hg hj h
  | inodes => exact hm.inodeBitmaps g j hg hj h

theorem Mounted.bitmap_apart (hm : Mounted fs) (hk : k' ≠ k) (hg : g < fs.groupsCount)
    (hj : j < fs.groupsCount) : k'.bitmap (fs.gdt j) ≠ k.bitmap (fs.gdt g) := by
  cases k <;> cases k'
  · exact absurd rfl hk
  · exact fun h => hm.bitmaps_apart g j hg hj h.symm
  · exact hm.bitmaps_apart j g hj hg
  · exact absurd rfl hk

/-- What the ledgers take from the layout. -/
theorem SameLayout.ledger (h : SameLayout fs fs') (k : Ledger) :
    k.perGroup fs'.sb = k.perGroup fs.sb ∧ k.limit fs'.sb = k.limit fs.sb ∧
      k.first fs'.sb = k.first fs.sb ∧ ∀ g, k.bitmap (fs'.gdt g) = k.bitmap (fs.gdt g) := by
  cases k with
  | blocks =>
    refine ⟨h.blocksPerGroup, ?_, h.firstDataBlock, h.blockBitmap⟩
    simp only [Ledger.limit, h.blocksCount, h.firstDataBlock]
  | inodes => exact ⟨h.inodesPerGroup, h.inodesCount, rfl, h.inodeBitmap⟩

theorem SameLayout.valid (h : SameLayout fs fs') (k : Ledger) (g : Nat) :
    k.valid fs'.sb g = k.valid fs.sb g := by
  obtain ⟨hper, hlimit, _, _⟩ := h.ledger k
  unfold Ledger.valid
  rw [hper, hlimit]

theorem Agrees.ledger (h : Agrees fs) (k : Ledger) :
    Balanced fs.groupsCount (k.free fs) (fun g => k.count (fs.gdt g)) (k.total fs.sb) := by
  cases k with
  | blocks => exact h.blocks
  | inodes => exact h.inodes

theorem Ledger.free_subset (k : Ledger) (fs : Fs) (g : Nat) : k.free fs g ⊆ k.valid fs.sb g :=
  filter_subset _ _

/-- Group and bit of a number. -/
theorem Ledger.split (k : Ledger) (sb : Superblock) (g : Nat) (hi : i < k.perGroup sb) :
    k.group sb (k.number sb g i) = g ∧ k.bit sb (k.number sb g i) = i := by
  unfold Ledger.group Ledger.bit Ledger.number
  rw [Nat.add_sub_cancel, Nat.mul_comm]
  exact ⟨by rw [mul_add_div (by omega), div_eq_of_lt hi, Nat.add_zero],
    by rw [mul_add_mod, mod_eq_of_lt hi]⟩

theorem Ledger.Has.number (h : k.Has fs n) :
    k.number fs.sb (k.group fs.sb n) (k.bit fs.sb n) = n := by
  unfold Ledger.number Ledger.group Ledger.bit
  rw [Nat.mul_comm, div_add_mod]
  exact Nat.sub_add_cancel h.first

/-- A number of the volume is a bit of its group. -/
theorem Ledger.Has.valid (h : k.Has fs n) : k.bit fs.sb n ∈ k.valid fs.sb (k.group fs.sb n) := by
  have hdiv := div_add_mod (n - k.first fs.sb) (k.perGroup fs.sb)
  refine mem_members.mpr ⟨mod_lt _ h.pos, ?_⟩
  unfold Ledger.group Ledger.bit
  rw [Nat.mul_comm, hdiv]
  exact h.limit

/-- A free bit is a free number of the volume. -/
theorem Ledger.free_number (hg : g < fs.groupsCount) (h : i ∈ k.free fs g) :
    k.Has fs (k.number fs.sb g i) ∧ ¬ k.Used fs (k.number fs.sb g i) := by
  obtain ⟨hvalid, hclear⟩ := mem_clearBits.mp h
  obtain ⟨hi, hvol⟩ := mem_members.mp hvalid
  obtain ⟨hgroup, hbit⟩ := k.split fs.sb g hi
  refine ⟨⟨Nat.le_add_left _ _, ?_, by rw [hgroup]; exact hg, by omega⟩, ?_⟩
  · unfold Ledger.number
    rw [Nat.add_sub_cancel]
    exact hvol
  · unfold Ledger.Used
    rw [hgroup, hbit, hclear]
    exact Bool.false_ne_true

theorem Ledger.Used.not_free (hused : k.Used fs n) :
    k.bit fs.sb n ∉ k.free fs (k.group fs.sb n) := by
  intro hmem
  rw [Ledger.Used, (mem_clearBits.mp hmem).2] at hused
  cases hused

theorem Ledger.all_used (h : ∀ g < fs.groupsCount, k.free fs g = ∅) (hn : k.Has fs n) :
    k.Used fs n := by
  by_contra hfree
  have hmem : k.bit fs.sb n ∈ k.free fs (k.group fs.sb n) :=
    mem_clearBits.mpr ⟨hn.valid, by simpa [Ledger.Used] using hfree⟩
  rw [h _ hn.group] at hmem
  exact absurd hmem (notMem_empty _)

/-- The store after blocks were read. -/
abbrev Fs.Reads (fs : Fs) (st : Store Bytes) : Prop :=
  Step (fun _ => False) fs.store st fs.store.content

section Entry

variable {P : Nat → Prop} {bitmap : GroupDesc → Nat} {β : Type}

theorem Step.trans {s s' s'' : Store β} {m m' : Nat → β} (h : Step P s s' m)
    (h' : Step P s' s'' m') : Step P s s'' m' :=
  ⟨h'.ok, h'.content, fun b hb hs => h'.synced b hb (h.synced b hb hs)⟩

theorem Step.mono {Q : Nat → Prop} {s s' : Store β} {m : Nat → β} (h : Step P s s' m)
    (hPQ : ∀ b, P b → Q b) : Step Q s s' m :=
  ⟨h.ok, h.content, fun b hb hs => h.synced b (fun hp => hb (hPQ b hp)) hs⟩

/-- The bitmap is read, one bit is changed and it is written back. -/
theorem Entry.of_write {st : Store Bytes} {bmp : Bytes}
    (hread : fs.Reads st)
    (hbits : ∀ j, test bmp j = if j = i then v else test (fs.store.content (bitmap (fs.gdt g))) j)
    (hlayout : SameLayout fs fs') (hstore : fs'.store = blockWrite st (bitmap (fs.gdt g)) bmp) :
    Entry bitmap fs fs' g i v := by
  have hstep := (hread.mono fun _ h => h.elim).trans
    (blockWrite_spec hread.ok (bitmap (fs.gdt g)) bmp)
  rw [hread.content] at hstep
  refine ⟨hlayout, ?_, ?_, ?_, ?_⟩
  · rw [hstore]
    exact hstep.ok
  · intro b hb
    rw [hstore, hstep.content, update_of_ne hb]
  · intro j
    rw [hstore, hstep.content, update_self]
    exact hbits j
  · intro b hb hs
    rw [hstore]
    exact hstep.synced b hb hs

/-- An entry changes the free numbers of one group. -/
theorem Entry.free (h : Entry k.bitmap fs fs' g i v) (hm : Mounted fs)
    (hg : g < fs.groupsCount) (hi : i ∈ k.valid fs.sb g) (hj : j < fs.groupsCount) :
    k.free fs' j = update (k.free fs) g
      (if v then (k.free fs g).erase i else insert i (k.free fs g)) j := by
  unfold Ledger.free
  rw [(h.layout.ledger k).2.2.2, h.layout.valid]
  by_cases hjg : j = g
  · rw [hjg, update_self]
    exact clearBits_change hi h.bits
  · rw [update_of_ne hjg, h.other]
    exact fun heq => hjg (hm.bitmap_inj k hj hg heq)

section

variable (h : Entry k.bitmap fs fs' g i v) (hm : Mounted fs)
include h hm

/-- The other ledger stays as it is. -/
theorem Entry.free_other (hk : k' ≠ k) (hg : g < fs.groupsCount) (hj : j < fs.groupsCount) :
    k'.free fs' j = k'.free fs j := by
  unfold Ledger.free
  rw [(h.layout.ledger k').2.2.2, h.layout.valid, h.other _ (hm.bitmap_apart hk hg hj)]

/-- An entry sets or clears the bit of one number. -/
theorem Entry.used (hg : g < fs.groupsCount) (hi : i < k.perGroup fs.sb) (hn : k.Has fs n) :
    k.Used fs' n ↔ if n = k.number fs.sb g i then v = true else k.Used fs n := by
  obtain ⟨hper, _, hfirst, hbitmap⟩ := h.layout.ledger k
  have hsame : k.group fs'.sb n = k.group fs.sb n ∧ k.bit fs'.sb n = k.bit fs.sb n := by
    unfold Ledger.group Ledger.bit
    rw [hper, hfirst]
    exact ⟨rfl, rfl⟩
  obtain ⟨hgroup, hbit⟩ := k.split fs.sb g hi
  unfold Ledger.Used
  rw [hsame.1, hsame.2, hbitmap]
  by_cases heq : n = k.number fs.sb g i
  · rw [if_pos heq, heq, hgroup, hbit, h.bits, if_pos rfl]
  rw [if_neg heq]
  by_cases hin : k.group fs.sb n = g
  · rw [hin, h.bits, if_neg]
    rintro rfl
    exact heq (by rw [← hin]; exact hn.number.symm)
  · rw [h.other]
    exact fun hsame => hin (hm.bitmap_inj k hn.group hg hsame)

theorem Entry.used_other (hk : k' ≠ k) (hg : g < fs.groupsCount) (hn : k'.Has fs n) :
    k'.Used fs' n ↔ k'.Used fs n := by
  obtain ⟨hper, _, hfirst, hbitmap⟩ := h.layout.ledger k'
  unfold Ledger.Used Ledger.group Ledger.bit
  rw [hper, hfirst, hbitmap, h.other]
  exact hm.bitmap_apart hk hg hn.group

end

end Entry

end Ledgers

/-! ### Allocation -/

section Alloc

variable {k : Ledger}

/-- **The search of an allocation.** Groups are gone through until one has a free number:
    those with a count of 0 are passed over, the others' bitmaps are read and searched.
    `Must` are the turns whose search sees the whole group. -/
theorem search_spec {α : Type} (ha : Agrees fs) (loop : Fs → List α → Int × Fs) (group : α → Nat)
    (scan : Bytes → α → Option Nat) (take : Fs → Nat → Bytes → Nat → Int × Fs) (Must : α → Prop)
    (hnil : ∀ st, loop (fs.setStore st) [] = (-enospc, fs.setStore st))
    (hcons : ∀ st a as, loop (fs.setStore st) (a :: as) =
      if k.count (fs.gdt (group a)) = 0 then loop (fs.setStore st) as
      else match scan (blockRead st (k.bitmap (fs.gdt (group a)))).1 a with
        | none => loop (fs.setStore (blockRead st (k.bitmap (fs.gdt (group a)))).2) as
        | some i => take (fs.setStore (blockRead st (k.bitmap (fs.gdt (group a)))).2) (group a)
            (blockRead st (k.bitmap (fs.gdt (group a)))).1 i)
    (hsome : ∀ a i, (k.free fs (group a)).Nonempty →
      scan (fs.store.content (k.bitmap (fs.gdt (group a)))) a = some i → i ∈ k.free fs (group a))
    (hnone : ∀ a, Must a → (k.free fs (group a)).Nonempty →
      scan (fs.store.content (k.bitmap (fs.gdt (group a)))) a ≠ none)
    (as : List α) (hgroup : ∀ a ∈ as, group a < fs.groupsCount) {st0 : Store Bytes}
    (hst0 : fs.Reads st0) :
    ∃ st, fs.Reads st ∧
      ((loop (fs.setStore st0) as = (-enospc, fs.setStore st) ∧
          ∀ a ∈ as, Must a → k.free fs (group a) = ∅) ∨
        ∃ g i, g < fs.groupsCount ∧ i ∈ k.free fs g ∧ loop (fs.setStore st0) as =
          take (fs.setStore st) g (fs.store.content (k.bitmap (fs.gdt g))) i) := by
  induction as generalizing st0 with
  | nil => exact ⟨st0, hst0, .inl ⟨hnil st0, fun a h => nomatch h⟩⟩
  | cons a as ih =>
    have hg := hgroup a (.head _)
    have hcard := (ha.ledger k).counts _ hg
    -- the loop goes on, and this turn was no miss
    have hgo : ∀ st1, fs.Reads st1 → loop (fs.setStore st0) (a :: as) = loop (fs.setStore st1) as →
        (Must a → k.free fs (group a) = ∅) →
        ∃ st, fs.Reads st ∧ ((loop (fs.setStore st0) (a :: as) = (-enospc, fs.setStore st) ∧
              ∀ b ∈ a :: as, Must b → k.free fs (group b) = ∅) ∨
            ∃ g i, g < fs.groupsCount ∧ i ∈ k.free fs g ∧ loop (fs.setStore st0) (a :: as) =
              take (fs.setStore st) g (fs.store.content (k.bitmap (fs.gdt g))) i) := by
      intro st1 hst1 heq hmiss
      obtain ⟨st, hst, hcases⟩ := ih (fun b hb => hgroup b (.tail _ hb)) hst1
      rw [← heq] at hcases
      exact ⟨st, hst, hcases.imp_left fun h => ⟨h.1, List.forall_mem_cons.mpr ⟨hmiss, h.2⟩⟩⟩
    by_cases hzero : k.count (fs.gdt (group a)) = 0
    · refine hgo st0 hst0 (by rw [hcons, if_pos hzero]) fun _ => ?_
      rw [hzero] at hcard
      exact Finset.card_eq_zero.mp hcard.symm
    obtain ⟨hread, hstep⟩ := blockRead_spec hst0.ok (k.bitmap (fs.gdt (group a)))
    rw [hst0.content] at hread hstep
    have hne : (k.free fs (group a)).Nonempty := by
      rw [← Finset.card_ne_zero, ← hcard]
      exact hzero
    have hturn := hcons st0 a as
    rw [if_neg hzero, hread] at hturn
    cases hscan : scan (fs.store.content (k.bitmap (fs.gdt (group a)))) a with
    | none =>
      rw [hscan] at hturn
      exact hgo _ (hst0.trans hstep) hturn fun hmust => absurd hscan (hnone a hmust hne)
    | some i =>
      rw [hscan] at hturn
      exact ⟨_, hst0.trans hstep, .inr ⟨_, i, hg, hsome a i hne hscan, hturn⟩⟩

/-- A group with a free block ends inside the range of block numbers. -/
theorem Mounted.group_no_wrap (hm : Mounted fs) (hne : (Ledger.blocks.free fs g).Nonempty) :
    g * fs.sb.blocksPerGroup + fs.sb.blocksPerGroup + fs.sb.firstDataBlock ≤ 2 ^ 32 := by
  obtain ⟨i, hi⟩ := hne
  have hvol : g * fs.sb.blocksPerGroup + i < fs.sb.blocksCount - fs.sb.firstDataBlock :=
    (mem_members.mp (mem_clearBits.mp hi).1).2
  have := hm.no_wrap.1
  omega

theorem Step.self (hm : Mounted fs) : fs.Reads fs.store :=
  ⟨hm.store, rfl, fun _ _ hb => hb⟩

/-- **`alloc_block`** takes a free block, or there is none. -/
theorem allocBlock_cases (hm : Mounted fs) (ha : Agrees fs)
    (hgroups : 2 * fs.groupsCount ≤ 2 ^ 32) :
    ∃ st, fs.Reads st ∧
      ((allocBlock fs = (-enospc, fs.setStore st) ∧
          ∀ g < fs.groupsCount, Ledger.blocks.free fs g = ∅) ∨
        ∃ g i, g < fs.groupsCount ∧ i ∈ Ledger.blocks.free fs g ∧ allocBlock fs =
          takeBlock (fs.setStore st) g (fs.store.content (fs.gdt g).blockBitmap) i) := by
  have hpos : 0 < fs.groupsCount := Nat.pos_of_ne_zero hm.groups_ne
  unfold allocBlock
  generalize hs : (if fs.allocGroup < fs.groupsCount then fs.allocGroup else 0) = start
  have hstart : start < fs.groupsCount := by
    rw [← hs]
    split <;> omega
  obtain ⟨st, hst, hcases⟩ := search_spec ha (allocBlockLoop start fs.allocBit)
    (fun n => u32 (start + n) % fs.groupsCount)
    (fun bmp n => scanBlocks fs.sb bmp (u32 (start + n) % fs.groupsCount)
      fs.sb.blocksPerGroup (if n = 0 then fs.allocBit else 0))
    takeBlock (fun n => n ≠ 0) (fun _ => rfl) (fun _ _ _ => rfl)
    (fun n i hne hscan => show Scanned _ _ (some i) from
      hscan ▸ scanBlocks_spec (hm.group_no_wrap hne) (Nat.le_add_right _ _))
    (fun n hn hne hscan => by
      -- a search from the first bit on would have found it
      obtain ⟨j, hj⟩ := hne
      rw [if_neg hn] at hscan
      have hall : Scanned _ 0 none :=
        hscan ▸ scanBlocks_spec (hm.group_no_wrap ⟨j, hj⟩) (Nat.le_add_right _ _)
      exact absurd (hall j hj) (Nat.not_lt_zero j))
    (List.range (fs.groupsCount + 1)) (fun _ _ => mod_lt _ hpos) (Step.self hm)
  refine ⟨st, hst, hcases.imp_left fun ⟨heq, hnone⟩ => ⟨heq, fun g hg => ?_⟩⟩
  -- the group comes up again in a round that is not the first
  have hround : ∃ n, n ≠ 0 ∧ n ≤ fs.groupsCount ∧ (start + n) % fs.groupsCount = g := by
    by_cases hlt : start < g
    · exact ⟨g - start, by omega, by omega, by
        rw [show start + (g - start) = g by omega, mod_eq_of_lt hg]⟩
    · refine ⟨g + fs.groupsCount - start, by omega, by omega, ?_⟩
      rw [show start + (g + fs.groupsCount - start) = g + fs.groupsCount by omega,
        add_mod_right, mod_eq_of_lt hg]
  obtain ⟨n, hn0, hnle, hng⟩ := hround
  have hempty := hnone n (List.mem_range.mpr (by omega)) hn0
  rwa [u32_of_lt (by omega), hng] at hempty

/-- **`alloc_inode`** takes a free inode, or there is none. -/
theorem allocInode_cases (hm : Mounted fs) (ha : Agrees fs) :
    ∃ st, fs.Reads st ∧
      ((allocInode fs = (-enospc, fs.setStore st) ∧
          ∀ g < fs.groupsCount, Ledger.inodes.free fs g = ∅) ∨
        ∃ g i, g < fs.groupsCount ∧ i ∈ Ledger.inodes.free fs g ∧ allocInode fs =
          takeInode (fs.setStore st) g (fs.store.content (fs.gdt g).inodeBitmap) i) := by
  obtain ⟨st, hst, hcases⟩ := search_spec (k := .inodes) ha allocInodeLoop id
    (fun bmp _ => scanInodes bmp fs.sb.inodesPerGroup) takeInode (fun _ => True)
    (fun _ => rfl) (fun _ _ _ => rfl)
    (fun g i hne hscan => by
      -- the first clear bit is not behind a free one
      obtain ⟨j, hj⟩ := hne
      obtain ⟨hvalid, hclear⟩ := mem_clearBits.mp hj
      have hvol : g * fs.sb.inodesPerGroup + j < fs.sb.inodesCount := (mem_members.mp hvalid).2
      obtain ⟨hi, htest, hbefore⟩ := scanInodes_some hscan
      have hij : i ≤ j := by
        by_contra hgt
        have hset := hbefore j (by omega)
        exact absurd (hset.symm.trans hclear) (by decide)
      refine mem_clearBits.mpr ⟨mem_members.mpr ⟨hi, ?_⟩, htest⟩
      exact Nat.lt_of_le_of_lt (Nat.add_le_add_left hij _) hvol)
    (fun g _ hne hscan => by
      obtain ⟨j, hj⟩ := hne
      obtain ⟨hvalid, hclear⟩ := mem_clearBits.mp hj
      have hset := scanInodes_none hscan j (mem_members.mp hvalid).1
      exact absurd (hset.symm.trans hclear) (by decide))
    (List.range fs.groupsCount) (fun g hg => List.mem_range.mp hg) (Step.self hm)
  refine ⟨st, hst, hcases.imp_left fun ⟨heq, hnone⟩ => ⟨heq, fun g hg => ?_⟩⟩
  exact hnone g (List.mem_range.mpr hg) trivial

end Alloc

/-! ## Section 5: The books stay balanced -/

section Operations

variable {k : Ledger} {st : Store Bytes} {d : GroupDesc} {v : Bool} {c : Nat}

/-- A descriptor's counts, the superblock's counts and the hints are no part of the
    layout. -/
theorem SameLayout.of_counts {m : Nat} (hgdt : fs'.gdt = update fs.gdt g d)
    (hb : d.blockBitmap = (fs.gdt g).blockBitmap) (hi : d.inodeBitmap = (fs.gdt g).inodeBitmap)
    (ht : d.inodeTable = (fs.gdt g).inodeTable)
    (hsb : fs'.sb = { fs.sb with freeBlocksCount := n, freeInodesCount := m })
    (hsize : fs'.blockSize = fs.blockSize) (hgroups : fs'.groupsCount = fs.groupsCount)
    (hinode : fs'.inodeSize = fs.inodeSize) : SameLayout fs fs' := by
  have hgd : ∀ k, (fs'.gdt k).blockBitmap = (fs.gdt k).blockBitmap ∧
      (fs'.gdt k).inodeBitmap = (fs.gdt k).inodeBitmap ∧
      (fs'.gdt k).inodeTable = (fs.gdt k).inodeTable := by
    intro k
    rw [hgdt]
    by_cases hk : k = g
    · rw [hk, update_self]
      exact ⟨hb, hi, ht⟩
    · rw [update_of_ne hk]
      exact ⟨rfl, rfl, rfl⟩
  exact ⟨hsize, hgroups, hinode, by rw [hsb], by rw [hsb], by rw [hsb], by rw [hsb], by rw [hsb],
    by rw [hsb], fun k => (hgd k).1, fun k => (hgd k).2.1, fun k => (hgd k).2.2⟩

/-- One descriptor is replaced: the counts of the others stay. -/
theorem update_count (f : GroupDesc → Nat) (gdt : Nat → GroupDesc) (g : Nat) (d : GroupDesc)
    (k : Nat) : f (update gdt g d k) = update (fun k => f (gdt k)) g (f d) k := by
  by_cases hk : k = g
  · rw [hk, update_self, update_self]
  · rw [update_of_ne hk, update_of_ne hk]

theorem update_count_same (f : GroupDesc → Nat) {gdt : Nat → GroupDesc} {g : Nat}
    (h : f d = f (gdt g)) (k : Nat) : f (update gdt g d k) = f (gdt k) := by
  by_cases hk : k = g
  · rw [hk, update_self, h]
  · rw [update_of_ne hk]

/-- The inode ledger does not change with the block ledger. -/
structure InodesKept (fs fs' : Fs) : Prop where
  count : ∀ k, (fs'.gdt k).freeInodesCount = (fs.gdt k).freeInodesCount
  total : fs'.sb.freeInodesCount = fs.sb.freeInodesCount

@[inherit_doc InodesKept] structure BlocksKept (fs fs' : Fs) : Prop where
  count : ∀ k, (fs'.gdt k).freeBlocksCount = (fs.gdt k).freeBlocksCount
  total : fs'.sb.freeBlocksCount = fs.sb.freeBlocksCount

def Kept : Ledger → Fs → Fs → Prop
  | .blocks => BlocksKept
  | .inodes => InodesKept

theorem Kept.counts (h : Kept k fs fs') :
    (∀ j, k.count (fs'.gdt j) = k.count (fs.gdt j)) ∧ k.total fs'.sb = k.total fs.sb := by
  cases k with
  | blocks => exact ⟨BlocksKept.count h, BlocksKept.total h⟩
  | inodes => exact ⟨InodesKept.count h, InodesKept.total h⟩

/-- An entry with the new count of its group; the other ledger's counts stay. -/
structure Posted (k : Ledger) (fs fs' : Fs) (g i : Nat) (v : Bool) (c : Nat) : Prop where
  entry : Entry k.bitmap fs fs' g i v
  count : ∀ j, k.count (fs'.gdt j) = Function.update (fun j => k.count (fs.gdt j)) g c j
  kept  : ∀ k', k' ≠ k → Kept k' fs fs'

/-- **Writing a block bitmap back** with one bit changed is an entry in the ledger. -/
theorem writeBlockBitmap_posted (bmp : Bytes) (count total : Nat)
    (hst : fs.Reads st)
    (hbits : ∀ j, test bmp j =
      if j = i then v else test (fs.store.content (fs.gdt g).blockBitmap) j) :
    Posted .blocks fs (writeBlockBitmap (fs.setStore st) g bmp count total) g i v count := by
  refine ⟨Entry.of_write hst hbits ?_ rfl, update_count GroupDesc.freeBlocksCount _ _ _, ?_⟩
  · exact SameLayout.of_counts rfl rfl rfl rfl rfl rfl rfl rfl
  · rintro (_ | _) hne
    · exact absurd rfl hne
    · exact ⟨update_count_same GroupDesc.freeInodesCount rfl, rfl⟩

theorem writeInodeBitmap_posted (bmp : Bytes) (count total unused : Nat)
    (hst : fs.Reads st)
    (hbits : ∀ j, test bmp j =
      if j = i then v else test (fs.store.content (fs.gdt g).inodeBitmap) j) :
    Posted .inodes fs (writeInodeBitmap (fs.setStore st) g bmp count total unused) g i v count := by
  refine ⟨Entry.of_write hst hbits ?_ rfl, update_count GroupDesc.freeInodesCount _ _ _, ?_⟩
  · exact SameLayout.of_counts rfl rfl rfl rfl rfl rfl rfl rfl
  · rintro (_ | _) hne
    · exact ⟨update_count_same GroupDesc.freeBlocksCount rfl, rfl⟩
    · exact absurd rfl hne

/-- The hints of `alloc_block` are in no ledger. -/
theorem Posted.hints (h : Posted k fs fs' g i v c) (group bit : Nat) :
    Posted k fs { fs' with allocGroup := group, allocBit := bit } g i v c := by
  obtain ⟨⟨l, hok, hother, hbits, hsynced⟩, hcount, hkept⟩ := h
  refine ⟨⟨?_, hok, hother, hbits, hsynced⟩, hcount, fun k' hk => ?_⟩
  · exact ⟨l.blockSize, l.groupsCount, l.inodeSize, l.inodesCount, l.blocksCount, l.firstDataBlock,
      l.blocksPerGroup, l.inodesPerGroup, l.hasCsum, l.blockBitmap, l.inodeBitmap, l.inodeTable⟩
  · have hcounts := (hkept k' hk).counts
    cases k' <;> exact ⟨hcounts.1, hcounts.2⟩

/-- What one change of the block ledger means for the numbers and for the rest of the
    device. -/
structure BlocksChanged (fs fs' : Fs) (b : Nat) (v : Bool) : Prop where
  layout  : SameLayout fs fs'
  mounted : Mounted fs'
  agrees  : Agrees fs'
  used    : ∀ c, VolumeBlock fs c →
    (BlockUsed fs' c ↔ if c = b then v = true else BlockUsed fs c)
  inodes  : ∀ ino, VolumeInode fs ino → (InodeUsed fs' ino ↔ InodeUsed fs ino)
  content : ∀ c, (∀ g < fs.groupsCount, c ≠ (fs.gdt g).blockBitmap) →
    fs'.store.content c = fs.store.content c
  synced  : ∀ c, (∀ g < fs.groupsCount, c ≠ (fs.gdt g).blockBitmap) →
    fs.store.Synced c → fs'.store.Synced c

/-- What one change of the inode ledger means. -/
structure InodesChanged (fs fs' : Fs) (ino : Nat) (v : Bool) : Prop where
  layout  : SameLayout fs fs'
  mounted : Mounted fs'
  agrees  : Agrees fs'
  used    : ∀ n, VolumeInode fs n →
    (InodeUsed fs' n ↔ if n = ino then v = true else InodeUsed fs n)
  blocks  : ∀ b, VolumeBlock fs b → (BlockUsed fs' b ↔ BlockUsed fs b)
  content : ∀ c, (∀ g < fs.groupsCount, c ≠ (fs.gdt g).inodeBitmap) →
    fs'.store.content c = fs.store.content c
  synced  : ∀ c, (∀ g < fs.groupsCount, c ≠ (fs.gdt g).inodeBitmap) →
    fs.store.Synced c → fs'.store.Synced c

def Changed : Ledger → Fs → Fs → Nat → Bool → Prop
  | .blocks => BlocksChanged
  | .inodes => InodesChanged

theorem Changed.after (h : Changed k fs fs' n v) : Mounted fs' ∧ Agrees fs' := by
  cases k with
  | blocks => exact ⟨BlocksChanged.mounted h, BlocksChanged.agrees h⟩
  | inodes => exact ⟨InodesChanged.mounted h, InodesChanged.agrees h⟩

theorem Changed.used (h : Changed k fs fs' n true) (hm : Mounted fs) (hn : k.Has fs n) :
    k.Used fs' n := by
  cases k with
  | blocks =>
    exact (BlocksChanged.used h n ((volumeBlock_iff hm n).mpr hn)).mpr (by rw [if_pos rfl])
  | inodes => exact (InodesChanged.used h n ((volumeInode_iff n).mpr hn)).mpr (by rw [if_pos rfl])

/-- After an entry only its own ledger is to be balanced. -/
theorem Posted.changed (h : Posted k fs fs' g i v c) (hm : Mounted fs) (ha : Agrees fs)
    (hg : g < fs.groupsCount) (hi : i ∈ k.valid fs.sb g)
    (hbal : Balanced fs.groupsCount (update (k.free fs) g
      (if v then (k.free fs g).erase i else insert i (k.free fs g)))
      (update (fun j => k.count (fs.gdt j)) g c) (k.total fs'.sb)) :
    Changed k fs fs' (k.number fs.sb g i) v := by
  have hledger : ∀ k' : Ledger, Balanced fs'.groupsCount (k'.free fs')
      (fun g => k'.count (fs'.gdt g)) (k'.total fs'.sb) := by
    intro k'
    rw [h.entry.layout.groupsCount]
    by_cases hk : k' = k
    · subst hk
      exact hbal.congr (fun j hj => h.entry.free hm hg hi hj) (fun j _ => h.count j) rfl
    · obtain ⟨hcount, htotal⟩ := (h.kept k' hk).counts
      exact (ha.ledger k').congr (fun j hj => h.entry.free_other hm hk hg hj) (fun j _ => hcount j)
        htotal
  have hmounted := hm.same h.entry.layout h.entry.ok
  have hagrees : Agrees fs' := ⟨hledger .blocks, hledger .inodes⟩
  have hlt := (mem_members.mp hi).1
  cases k with
  | blocks =>
    refine ⟨h.entry.layout, hmounted, hagrees, fun b hb => ?_, fun ino hino => ?_,
      fun b hb => h.entry.other b (hb g hg), fun b hb => h.entry.synced b (hb g hg)⟩
    · exact h.entry.used hm hg hlt ((volumeBlock_iff hm b).mp hb)
    · exact h.entry.used_other hm Ledger.noConfusion hg ((volumeInode_iff ino).mp hino)
  | inodes =>
    refine ⟨h.entry.layout, hmounted, hagrees, fun ino hino => ?_, fun b hb => ?_,
      fun b hb => h.entry.other b (hb g hg), fun b hb => h.entry.synced b (hb g hg)⟩
    · exact h.entry.used hm hg hlt ((volumeInode_iff ino).mp hino)
    · exact h.entry.used_other hm Ledger.noConfusion hg ((volumeBlock_iff hm b).mp hb)

/-- A free number is taken. -/
theorem Posted.take (h : Posted k fs fs' g i true (dec16 (k.count (fs.gdt g)))) (hm : Mounted fs)
    (ha : Agrees fs) (hg : g < fs.groupsCount) (hi : i ∈ k.free fs g)
    (htotal : k.total fs'.sb = dec32 (k.total fs.sb)) :
    Changed k fs fs' (k.number fs.sb g i) true := by
  refine h.changed hm ha hg (k.free_subset fs g hi) ?_
  rw [htotal]
  exact (ha.ledger k).take hg hi

theorem Small.ledger (hs : Small fs) (k : Ledger) :
    k.perGroup fs.sb < 2 ^ 16 ∧ k.limit fs.sb ≤ 2 ^ 31 := by
  cases k with
  | blocks => exact ⟨hs.blocksPerGroup, (sub_le _ _).trans hs.blocks⟩
  | inodes => exact ⟨hs.inodesPerGroup, hs.inodes.le⟩

/-- A number in use is given back. -/
theorem Posted.give (hn : k.Has fs n) (hused : k.Used fs n)
    (h : Posted k fs fs' (k.group fs.sb n) (k.bit fs.sb n) false
      (inc16 (k.count (fs.gdt (k.group fs.sb n))))) (hm : Mounted fs) (ha : Agrees fs)
    (hs : Small fs) (htotal : k.total fs'.sb = inc32 (k.total fs.sb)) :
    Changed k fs fs' n false := by
  have hcount := (ha.ledger k).count_lt hn.group (k.free_subset fs _) hn.valid hused.not_free
  have hle := (ha.ledger k).total_le (k.free_subset fs)
  obtain ⟨hper, hlimit⟩ := hs.ledger k
  have hchanged := h.changed hm ha hn.group hn.valid (by
    rw [htotal]
    exact (ha.ledger k).give hn.group hused.not_free (by omega) (by omega))
  rwa [hn.number] at hchanged

section

variable (hm : Mounted fs) (ha : Agrees fs)
include hm ha

/-- A free block is taken. -/
theorem takeBlock_changes (hg : g < fs.groupsCount) (hi : i ∈ Ledger.blocks.free fs g)
    (hst : fs.Reads st) :
    Changed .blocks fs (takeBlock (fs.setStore st) g (fs.store.content (fs.gdt g).blockBitmap) i).2
      (Ledger.blocks.number fs.sb g i) true := by
  have hposted := writeBlockBitmap_posted (set (fs.store.content (fs.gdt g).blockBitmap) i)
    (dec16 (fs.gdt g).freeBlocksCount) (dec32 fs.sb.freeBlocksCount) hst (fun _ => test_set)
  exact (hposted.hints g (i + 1)).take hm ha hg hi rfl

/-- A free inode is taken. -/
theorem takeInode_changes (hg : g < fs.groupsCount) (hi : i ∈ Ledger.inodes.free fs g)
    (hst : fs.Reads st) :
    Changed .inodes fs (takeInode (fs.setStore st) g (fs.store.content (fs.gdt g).inodeBitmap) i).2
      (Ledger.inodes.number fs.sb g i) true := by
  have hposted := writeInodeBitmap_posted (set (fs.store.content (fs.gdt g).inodeBitmap) i)
    (dec16 (fs.gdt g).freeInodesCount) (dec32 fs.sb.freeInodesCount)
    (if fs.sb.groupCsum && u16 (sub32 fs.sb.inodesPerGroup (i + 1)) < (fs.gdt g).itableUnused then
      u16 (sub32 fs.sb.inodesPerGroup (i + 1)) else (fs.gdt g).itableUnused)
    hst (fun _ => test_set)
  exact hposted.take hm ha hg hi rfl

/-- An inode in use is given back. -/
theorem freeInode_changes (hs : Small fs) (hn : Ledger.inodes.Has fs n)
    (hused : Ledger.inodes.Used fs n) : Changed .inodes fs (freeInode fs n) n false := by
  have hsub : sub32 n 1 = n - 1 := by
    have hlimit : n - 1 < fs.sb.inodesCount := hn.limit
    have := hs.inodes
    exact sub32_of_le (by omega) hn.first
  obtain ⟨hread, hstep⟩ := blockRead_spec hm.store
    (fs.gdt (Ledger.inodes.group fs.sb n)).inodeBitmap
  have hposted := writeInodeBitmap_posted (clear (blockRead fs.store
      (fs.gdt (Ledger.inodes.group fs.sb n)).inodeBitmap).1 (Ledger.inodes.bit fs.sb n))
    (inc16 (fs.gdt (Ledger.inodes.group fs.sb n)).freeInodesCount) (inc32 fs.sb.freeInodesCount)
    (fs.gdt (Ledger.inodes.group fs.sb n)).itableUnused hstep
    (fun _ => by rw [hread]; exact test_clear)
  have hcall := Posted.give hn hused hposted hm ha hs rfl
  unfold freeInode
  rw [hsub]
  exact hcall

end

/-- Dropping the read-ahead changes no block. -/
theorem raDrop_step (hok : fs.store.Ok) :
    fs.Reads fs.raDrop.store := by
  cases hwb : fs.store.wb with
  | none =>
    have hsame : fs.raDrop.store = fs.store := by
      unfold Fs.raDrop Fs.setStore
      rw [hwb, Option.map_none, ← hwb]
    rw [hsame]
    exact ⟨hok, rfl, fun _ _ hb => hb⟩
  | some wb =>
    have hstore : fs.raDrop.store = ⟨fs.store.dev, some (raDrop wb)⟩ := by
      unfold Fs.raDrop Fs.setStore
      rw [hwb, Option.map_some]
    have hcontent : fs.raDrop.store.content = fs.store.content := by
      unfold Store.content
      rw [hstore, hwb]
      rfl
    refine ⟨?_, hcontent, ?_⟩
    · intro wb' hwb'
      rw [hstore] at hwb' ⊢
      obtain rfl := Option.some.inj hwb'
      exact raDrop_coherent (hok wb hwb)
    intro b _ hb
    unfold Store.Synced at hb ⊢
    rw [hcontent, hstore]
    exact hb

/-- What an allocation does: it takes a free number and returns it, or all are in use. -/
def AllocSpec (k : Ledger) (fs : Fs) (r : Int × Fs) : Prop :=
  (∃ st, Step (fun _ => False) fs.store st fs.store.content ∧ r = (-enospc, fs.setStore st) ∧
      ∀ n, k.Has fs n → k.Used fs n) ∨
    ∃ n : Nat, r.1 = n ∧ k.Has fs n ∧ ¬ k.Used fs n ∧ Changed k fs r.2 n true

section

variable (hm : Mounted fs) (ha : Agrees fs) (hs : Small fs)
include hm ha hs

/-- **`free_block`** gives a block in use back. -/
theorem freeBlock_changes (hn : Ledger.blocks.Has fs n) (hused : Ledger.blocks.Used fs n) :
    Changed .blocks fs (freeBlock fs n) n false := by
  have hdrop := raDrop_step hm.store
  obtain ⟨hread, hstep⟩ :=
    blockRead_spec hdrop.ok (fs.gdt (Ledger.blocks.group fs.sb n)).blockBitmap
  rw [hdrop.content] at hread hstep
  have hposted := writeBlockBitmap_posted (clear (blockRead fs.raDrop.store
      (fs.gdt (Ledger.blocks.group fs.sb n)).blockBitmap).1 (Ledger.blocks.bit fs.sb n))
    (inc16 (fs.gdt (Ledger.blocks.group fs.sb n)).freeBlocksCount) (inc32 fs.sb.freeBlocksCount)
    (hdrop.trans hstep) (fun _ => by rw [hread]; exact test_clear)
  have hcall := Posted.give hn hused hposted hm ha hs rfl
  have hlo : fs.sb.firstDataBlock ≤ n := hn.first
  have hgroup : (n - fs.sb.firstDataBlock) / fs.sb.blocksPerGroup < fs.groupsCount := hn.group
  unfold freeBlock
  rw [if_neg (Nat.not_lt.mpr hlo)]
  rw [if_neg (Nat.not_le.mpr hgroup)]
  exact hcall

theorem allocBlock_spec : AllocSpec .blocks fs (allocBlock fs) := by
  obtain ⟨st, hst, ⟨heq, hnone⟩ | ⟨g, i, hg, hi, heq⟩⟩ := allocBlock_cases hm ha (hm.groups_le hs)
  · exact .inl ⟨st, hst, heq, fun n hn => Ledger.all_used hnone hn⟩
  obtain ⟨hvol, hfree⟩ := Ledger.free_number hg hi
  refine .inr ⟨_, ?_, hvol, hfree, by rw [heq]; exact takeBlock_changes hm ha hg hi hst⟩
  have hlt := (mem_members.mp (mem_clearBits.mp hi).1).1
  have hbound := ((volumeBlock_iff hm _).mpr hvol).2
  have hsmall := hs.blocks
  have hnumber : (allocBlock fs).1 = i32 (absBlock fs.sb g i) := by
    rw [heq]
    rfl
  rw [hnumber, absBlock_eq (hm.group_no_wrap ⟨i, hi⟩) hlt]
  exact i32_of_lt (Nat.lt_of_lt_of_le hbound hsmall)

theorem allocInode_spec : AllocSpec .inodes fs (allocInode fs) := by
  obtain ⟨st, hst, ⟨heq, hnone⟩ | ⟨g, i, hg, hi, heq⟩⟩ := allocInode_cases hm ha
  · exact .inl ⟨st, hst, heq, fun n hn => Ledger.all_used hnone hn⟩
  obtain ⟨hvol, hfree⟩ := Ledger.free_number hg hi
  refine .inr ⟨_, ?_, hvol, hfree, by rw [heq]; exact takeInode_changes hm ha hg hi hst⟩
  have hle : g * fs.sb.inodesPerGroup + i + 1 ≤ fs.sb.inodesCount :=
    ((volumeInode_iff _).mpr hvol).2.1
  have hsmall := hs.inodes
  have hnumber : (allocInode fs).1 = i32 (u32 (g * fs.sb.inodesPerGroup + i + 1)) := by
    rw [heq]
    rfl
  rw [hnumber, u32_of_lt (by omega)]
  exact i32_of_lt (by omega)

end

end Operations

/-! ## Section 6: Runs of allocations and frees -/

/-- The four operations, and whatever else is done with the blocks of the device. -/
inductive AllocOp where
  | allocBlock
  | allocInode
  | freeBlock (b : Nat)
  | freeInode (ino : Nat)
  | other (store : Store Bytes)

/-- One operation. Only numbers in use are freed; what else is done leaves the bitmaps
    alone. -/
def AllocStep (fs : Fs) : AllocOp → Fs → Prop
  | .allocBlock, fs' => fs' = (allocBlock fs).2
  | .allocInode, fs' => fs' = (allocInode fs).2
  | .freeBlock b, fs' => VolumeBlock fs b ∧ BlockUsed fs b ∧ fs' = freeBlock fs b
  | .freeInode ino, fs' => VolumeInode fs ino ∧ InodeUsed fs ino ∧ fs' = freeInode fs ino
  | .other store, fs' => store.Ok ∧
      (∀ g < fs.groupsCount,
        store.content (fs.gdt g).blockBitmap = fs.store.content (fs.gdt g).blockBitmap ∧
        store.content (fs.gdt g).inodeBitmap = fs.store.content (fs.gdt g).inodeBitmap) ∧
      fs' = fs.setStore store

def allocSystem : System Fs AllocOp where
  init fs := Mounted fs ∧ Agrees fs
  step fs op fs' := AllocStep fs op fs'

/-- What an allocation of a block promises. -/
def AllocBlockOk (reserved : Nat → Prop) (fs : Fs) : Prop :=
  ((allocBlock fs).1 = -enospc ↔ ∀ b, VolumeBlock fs b → BlockUsed fs b) ∧
    ((allocBlock fs).1 ≠ -enospc → ∃ b : Nat, (allocBlock fs).1 = b ∧ VolumeBlock fs b ∧
      ¬ BlockUsed fs b ∧ ¬ reserved b ∧ BlockUsed (allocBlock fs).2 b)

/-- What an allocation of an inode promises. -/
def AllocInodeOk (reserved : Nat → Prop) (fs : Fs) : Prop :=
  ((allocInode fs).1 = -enospc ↔ ∀ ino, VolumeInode fs ino → InodeUsed fs ino) ∧
    ((allocInode fs).1 ≠ -enospc → ∃ ino : Nat, (allocInode fs).1 = ino ∧ VolumeInode fs ino ∧
      ¬ InodeUsed fs ino ∧ ¬ reserved ino ∧ InodeUsed (allocInode fs).2 ino)

/-- The volume is small enough and the reserved numbers are marked as in use. -/
structure Fits (reservedBlock reservedInode : Nat → Prop) (fs : Fs) : Prop where
  small  : Small fs
  blocks : ∀ b, reservedBlock b → VolumeBlock fs b → BlockUsed fs b
  inodes : ∀ ino, reservedInode ino → VolumeInode fs ino → InodeUsed fs ino

section Runs

variable {k : Ledger} {reserved reservedBlock reservedInode : Nat → Prop} {r : Int × Fs}

/-- The promise, for either ledger. -/
theorem AllocSpec.ok (h : AllocSpec k fs r) (hm : Mounted fs)
    (hreserved : ∀ n, reserved n → k.Has fs n → k.Used fs n) :
    (r.1 = -enospc ↔ ∀ n, k.Has fs n → k.Used fs n) ∧
      (r.1 ≠ -enospc → ∃ n : Nat, r.1 = n ∧ k.Has fs n ∧ ¬ k.Used fs n ∧ ¬ reserved n ∧
        k.Used r.2 n) := by
  rcases h with ⟨st, _, rfl, hall⟩ | ⟨n, hret, hvol, hfree, hchanged⟩
  · exact ⟨⟨fun _ => hall, fun _ => rfl⟩, fun hne => absurd rfl hne⟩
  have hne : r.1 ≠ -enospc := by
    unfold enospc
    omega
  refine ⟨⟨fun heq => absurd heq hne, fun hall => absurd (hall n hvol) hfree⟩, fun _ => ?_⟩
  exact ⟨n, hret, hvol, hfree, fun hres => hfree (hreserved n hres hvol), hchanged.used hm hvol⟩

theorem allocBlock_ok (hm : Mounted fs) (ha : Agrees fs)
    (hf : Fits reservedBlock reservedInode fs) :
    AllocBlockOk reservedBlock fs := by
  have hres := hf.blocks
  unfold AllocBlockOk
  simp only [volumeBlock_iff hm] at hres ⊢
  exact (allocBlock_spec hm ha hf.small).ok hm hres

theorem allocInode_ok (hm : Mounted fs) (ha : Agrees fs)
    (hf : Fits reservedBlock reservedInode fs) :
    AllocInodeOk reservedInode fs := by
  have hres := hf.inodes
  unfold AllocInodeOk
  simp only [volumeInode_iff] at hres ⊢
  exact (allocInode_spec hm ha hf.small).ok hm hres

/-- Blocks other than the bitmaps do not matter. -/
theorem Agrees.setStore (h : Agrees fs) {store : Store Bytes} (hbitmaps : ∀ g < fs.groupsCount,
      store.content (fs.gdt g).blockBitmap = fs.store.content (fs.gdt g).blockBitmap ∧
      store.content (fs.gdt g).inodeBitmap = fs.store.content (fs.gdt g).inodeBitmap) :
    Agrees (fs.setStore store) := by
  constructor
  · refine h.blocks.congr (fun g hg => ?_) (fun _ _ => rfl) rfl
    exact congrArg (clearBits (validBlocks fs.sb g)) (hbitmaps g hg).1
  · refine h.inodes.congr (fun g hg => ?_) (fun _ _ => rfl) rfl
    exact congrArg (clearBits (validInodes fs.sb g)) (hbitmaps g hg).2

theorem AllocSpec.agrees (h : AllocSpec k fs r) (hm : Mounted fs) (ha : Agrees fs) :
    Mounted r.2 ∧ Agrees r.2 := by
  rcases h with ⟨st, hst, rfl, _⟩ | ⟨n, _, _, _, hchanged⟩
  · exact ⟨hm.same (.setStore fs st) hst.ok, ha.setStore fun g _ => by rw [hst.content]; simp⟩
  · exact hchanged.after

/-- **Step lemma.** -/
theorem AllocStep.agrees {op : AllocOp} (hs : Small fs) (hm : Mounted fs) (ha : Agrees fs)
    (hstep : AllocStep fs op fs') : Mounted fs' ∧ Agrees fs' := by
  cases op with
  | allocBlock =>
    obtain rfl := hstep
    exact (allocBlock_spec hm ha hs).agrees hm ha
  | allocInode =>
    obtain rfl := hstep
    exact (allocInode_spec hm ha hs).agrees hm ha
  | freeBlock b =>
    obtain ⟨hvol, hused, rfl⟩ := hstep
    exact (freeBlock_changes hm ha hs ((volumeBlock_iff hm b).mp hvol) hused).after
  | freeInode ino =>
    obtain ⟨hvol, hused, rfl⟩ := hstep
    exact (freeInode_changes hm ha hs ((volumeInode_iff ino).mp hvol) hused).after
  | other store =>
    obtain ⟨hok, hbitmaps, rfl⟩ := hstep
    exact ⟨hm.same (.setStore fs store) hok, ha.setStore hbitmaps⟩

end Runs

/-! ### A volume with one free block -/

/-- A bitmap with all bits set. -/
def fullBitmap : Bytes := fun _ => 0xFF

/-- A volume on which all inodes are in use, and of the blocks all but the last. -/
def lastFree (blocks perGroup : Nat) : Fs where
  store :=
    { dev := fun b =>
        if b = (blocks - 1) / perGroup then clear fullBitmap ((blocks - 1) % perGroup)
        else fullBitmap
      wb := none }
  sb :=
    { inodesCount := 8, blocksCount := blocks, freeBlocksCount := 1, freeInodesCount := 0,
      firstDataBlock := 0, blocksPerGroup := perGroup, inodesPerGroup := 8,
      hasCsum := false, groupCsum := false }
  gdt g :=
    { blockBitmap := g, inodeBitmap := blocks + g, inodeTable := blocks + blocks + g,
      freeBlocksCount := if g = (blocks - 1) / perGroup then 1 else 0, freeInodesCount := 0,
      itableUnused := 0 }
  blockSize := 4096
  groupsCount := (blocks + perGroup - 1) / perGroup
  inodeSize := 128
  allocGroup := 0
  allocBit := 0

section LastFree

variable {blocks perGroup : Nat}

theorem lastFree_content (b : Nat) : (lastFree blocks perGroup).store.content b =
    if b = (blocks - 1) / perGroup then clear fullBitmap ((blocks - 1) % perGroup)
    else fullBitmap := rfl

theorem test_fullBitmap (i : Nat) : test fullBitmap i = true := test_of_full rfl

section

variable (hblocks : 0 < blocks)
include hblocks

theorem lastFree_mounted (hper : 0 < perGroup) (hwrap : blocks + perGroup ≤ 2 ^ 32) :
    Mounted (lastFree blocks perGroup) where
  store := fun wb hwb => nomatch hwb
  groups := by
    change _ = u32 (blocks + perGroup - 1) / perGroup
    rw [u32_of_lt (by omega)]
    rfl
  groups_ne := by
    change (blocks + perGroup - 1) / perGroup ≠ 0
    have := Nat.div_pos (show perGroup ≤ blocks + perGroup - 1 by omega) hper
    omega
  blocksCount := by
    change blocks < 2 ^ 32
    omega
  perGroup := by
    change perGroup < 2 ^ 32
    omega
  blockBitmaps g g' _ _ heq := heq
  inodeBitmaps g g' _ _ heq := Nat.add_left_cancel heq
  bitmaps_apart g g' hg _ := by
    change g ≠ blocks + g'
    have hle : (blocks + perGroup - 1) / perGroup ≤ blocks := by
      rw [div_le_iff_le_mul_add_pred hper]
      have := Nat.le_mul_of_pos_left blocks hper
      omega
    have hlt : g < (blocks + perGroup - 1) / perGroup := hg
    omega

theorem lastFree_freeBlocks (hper : 0 < perGroup) (g : Nat) :
    freeBlocks (lastFree blocks perGroup) g =
      if g = (blocks - 1) / perGroup then {(blocks - 1) % perGroup} else ∅ := by
  have hsplit := div_add_mod (blocks - 1) perGroup
  have hmod := mod_lt (blocks - 1) hper
  rw [Nat.mul_comm] at hsplit
  ext i
  have hmem : i ∈ freeBlocks (lastFree blocks perGroup) g ↔
      (i < perGroup ∧ g * perGroup + i < blocks) ∧
        test ((lastFree blocks perGroup).store.content g) i = false := by
    rw [← mem_members]
    exact mem_clearBits
  rw [hmem, lastFree_content]
  by_cases hg : g = (blocks - 1) / perGroup
  · rw [if_pos hg, if_pos hg, test_clear, test_fullBitmap, mem_singleton]
    by_cases hi : i = (blocks - 1) % perGroup
    · rw [if_pos hi, hg, hi]
      simp only [and_true, iff_true]
      omega
    · simp [hi]
  · rw [if_neg hg, if_neg hg, test_fullBitmap]
    simp

theorem lastFree_freeInodes (g : Nat) : freeInodes (lastFree blocks perGroup) g = ∅ := by
  rw [eq_empty_iff_forall_notMem]
  intro i hi
  have hlast : blocks + g ≠ (blocks - 1) / perGroup := by
    have := Nat.div_le_self (blocks - 1) perGroup
    omega
  have hbit : test ((lastFree blocks perGroup).store.content (blocks + g)) i = false :=
    (mem_clearBits.mp hi).2
  rw [lastFree_content, if_neg hlast, test_fullBitmap] at hbit
  cases hbit

theorem lastFree_agrees (hper : 0 < perGroup) : Agrees (lastFree blocks perGroup) := by
  refine ⟨⟨?_, ?_⟩, ⟨?_, ?_⟩⟩
  · intro g _
    rw [lastFree_freeBlocks hblocks hper]
    change (if g = (blocks - 1) / perGroup then 1 else 0) = _
    split <;> rfl
  · change 1 = ∑ g ∈ Finset.range ((blocks + perGroup - 1) / perGroup),
      if g = (blocks - 1) / perGroup then 1 else 0
    rw [sum_ite_eq', if_pos]
    rw [mem_range, show blocks + perGroup - 1 = blocks - 1 + perGroup by omega,
      add_div_right _ hper]
    exact lt_succ_self _
  · intro g _
    rw [lastFree_freeInodes hblocks]
    rfl
  · exact (sum_eq_zero fun _ _ => rfl).symm

end

/-- The last block is taken, and its number returned. -/
theorem lastFree_alloc (hblocks : 0 < blocks) (hper : 0 < perGroup)
    (hwrap : blocks + perGroup ≤ 2 ^ 32)
    (hgroups : 2 * ((blocks + perGroup - 1) / perGroup) ≤ 2 ^ 32) :
    (allocBlock (lastFree blocks perGroup)).1 = i32 (blocks - 1) ∧
      ¬ BlockUsed (lastFree blocks perGroup) (blocks - 1) := by
  have hm := lastFree_mounted hblocks hper hwrap
  obtain ⟨st, _, hcases⟩ := allocBlock_cases hm (lastFree_agrees hblocks hper) hgroups
  have hsplit := div_add_mod (blocks - 1) perGroup
  rw [Nat.mul_comm] at hsplit
  have hfree : ∀ g, Ledger.blocks.free (lastFree blocks perGroup) g =
      if g = (blocks - 1) / perGroup then {(blocks - 1) % perGroup} else ∅ :=
    lastFree_freeBlocks hblocks hper
  rcases hcases with ⟨_, hnone⟩ | ⟨g, i, hg, hi, heq⟩
  · have hlast := hm.group_lt (by
      change blocks - 1 < blocks
      omega)
    have := hnone _ hlast
    rw [show (lastFree blocks perGroup).sb.blocksPerGroup = perGroup from rfl, hfree,
      if_pos rfl] at this
    exact absurd this (singleton_ne_empty _)
  have hbit : g = (blocks - 1) / perGroup ∧ i = (blocks - 1) % perGroup := by
    rw [hfree] at hi
    by_cases hlast : g = (blocks - 1) / perGroup
    · rw [if_pos hlast, mem_singleton] at hi
      exact ⟨hlast, hi⟩
    · rw [if_neg hlast] at hi
      exact absurd hi (notMem_empty _)
  obtain ⟨_, hunused⟩ := Ledger.free_number hg hi
  have hnumber : Ledger.blocks.number (lastFree blocks perGroup).sb g i = blocks - 1 := by
    rw [hbit.1, hbit.2]
    exact hsplit
  rw [hnumber] at hunused
  refine ⟨?_, hunused⟩
  have hret : (allocBlock (lastFree blocks perGroup)).1 =
      i32 (absBlock (lastFree blocks perGroup).sb g i) := by
    rw [heq]
    rfl
  rw [hret, absBlock_eq (hm.group_no_wrap ⟨i, hi⟩) (mem_members.mp (mem_clearBits.mp hi).1).1]
  exact congrArg i32 hnumber

end LastFree

/-- **Accounting.** In every run of allocations and frees on a volume that fits, the
    counts agree with the bitmaps, and an allocation returns a number of the volume that
    is neither in use nor reserved, or there is none. -/
theorem ext2_accounting {reservedBlock reservedInode : Nat → Prop} {fs : Fs}
    (h : (allocSystem.restrict fun fs _ => Fits reservedBlock reservedInode fs).Reachable fs) :
    Agrees fs ∧ (Fits reservedBlock reservedInode fs →
      AllocBlockOk reservedBlock fs ∧ AllocInodeOk reservedInode fs) := by
  have hinv : Mounted fs ∧ Agrees fs := by
    induction h with
    | init hinit => exact hinit
    | step op _ hstep ih => exact hstep.2.agrees hstep.1.small ih.1 ih.2
  exact ⟨hinv.2, fun hf => ⟨allocBlock_ok hinv.1 hinv.2 hf, allocInode_ok hinv.1 hinv.2 hf⟩⟩

theorem ext2_accounting_last_block :
    Agrees (allocBlock (lastFree 16 8)).2 ∧
      AllocBlockOk (fun b => b = 0) (lastFree 16 8) ∧
      AllocInodeOk (fun ino => ino ≤ 2) (lastFree 16 8) := by
  have hm : Mounted (lastFree 16 8) := lastFree_mounted (by decide) (by decide) (by decide)
  have ha : Agrees (lastFree 16 8) := lastFree_agrees (by decide) (by decide)
  have hinodes : ∀ ino, VolumeInode (lastFree 16 8) ino → InodeUsed (lastFree 16 8) ino := by
    intro ino hino
    exact Ledger.all_used (k := .inodes) (fun g _ => lastFree_freeInodes (by decide) g)
      ((volumeInode_iff ino).mp hino)
  have hf : Fits (fun b => b = 0) (fun ino => ino ≤ 2) (lastFree 16 8) := by
    refine ⟨⟨by decide, by decide, by decide, by decide, by decide, by decide⟩, ?_,
      fun ino _ hino => hinodes ino hino⟩
    rintro b rfl _
    exact test_fullBitmap 0
  have hinit : (allocSystem.restrict fun fs _ =>
      Fits (fun b => b = 0) (fun ino => ino ≤ 2) fs).Reachable (lastFree 16 8) := .init ⟨hm, ha⟩
  exact ⟨(ext2_accounting (hinit.step .allocBlock ⟨hf, rfl⟩)).1, (ext2_accounting hinit).2 hf⟩

/-- On a volume of more than `2 ^ 31` blocks the number of a free block is returned as a
    negative one. -/
theorem allocBlock_negative :
    allocSystem.Reachable (lastFree (2 ^ 31 + 1) 32768) ∧
      (allocBlock (lastFree (2 ^ 31 + 1) 32768)).1 = -2 ^ 31 ∧
      VolumeBlock (lastFree (2 ^ 31 + 1) 32768) (2 ^ 31) ∧
      ¬ BlockUsed (lastFree (2 ^ 31 + 1) 32768) (2 ^ 31) ∧
      ¬ AllocBlockOk (fun _ => False) (lastFree (2 ^ 31 + 1) 32768) := by
  have hm : Mounted (lastFree (2 ^ 31 + 1) 32768) :=
    lastFree_mounted (by decide) (by decide) (by decide)
  obtain ⟨hret, hfree⟩ := @lastFree_alloc (2 ^ 31 + 1) 32768 (by decide) (by decide) (by decide)
    (by decide)
  have hneg : (allocBlock (lastFree (2 ^ 31 + 1) 32768)).1 = -2 ^ 31 := hret.trans (by decide)
  refine ⟨.init ⟨hm, lastFree_agrees (by decide) (by decide)⟩, hneg, ⟨by decide, by decide⟩,
    hfree, ?_⟩
  intro hok
  obtain ⟨b, hb, _⟩ := hok.2 (by rw [hneg]; decide)
  omega

end Cervus.Ext2
