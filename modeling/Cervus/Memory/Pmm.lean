import Cervus.Framework.Word

/-! # The physical page allocator (`kernel/src/memory/pmm.c`)

    A binary buddy allocator over orders `0 .. 13`. Each order has a free
    list; a block is named by its physical address.

    * The free lists are doubly linked through the free blocks themselves.
      Here a list is a `List` of blocks, head first, and a block keeps the
      `order` field that the allocator stores in it. `_fl_find` and
      `_buddy_alloc_order` test a link with `_block_ptr_valid`, which is
      modelled with the pointer arithmetic it does on the direct map; `_fl_del`
      and `pmm_alloc_below` follow the links as they are.
    * The links themselves are not modelled. `pmm_free` clears the first 64
      bytes of what it frees, and `_fl_del` the links of what it takes: after a
      free of a page that was free already, a list here is no longer the list
      that the links give. The results follow such a free for one call only.
    * Addresses and counters are `uintptr_t` / `size_t`: natural numbers,
      reduced by `u64` where the C code could wrap.
    * A `none` result of an allocator call means that the call never returns:
      `_pages_to_order` doubles `cap` until it reaches `pages`, and for more
      than `2 ^ 63` pages `cap` becomes 0 and stays there.
    * The allocator lock makes each call one step; the statistics counters
      and the messages on the serial line are left out. -/

namespace Cervus.Pmm

/-! ## Section 1: Data model -/

def pageSize : Nat := 4096
def pageShift : Nat := 12
/-- `PMM_MAX_ORDER` -/
def maxOrder : Nat := 13
/-- `PMM_FREE_MIN_PHYS`: nothing below 1 MiB is ever put on a free list. -/
def freeMinPhys : Nat := 0x100000

/-- `boot_mem_type_t` -/
inductive BootMemType where
  | usable
  | reserved
  | acpiReclaimable
  | acpiNvs
  | bad
  | bootloaderReclaimable
  | kernel
  | framebuffer
  deriving DecidableEq, Repr

/-- `boot_mmap_entry_t` -/
structure BootMmapEntry where
  base   : Nat
  length : Nat
  type   : BootMemType
  deriving DecidableEq, Repr

/-- The part of `boot_info_t` that `pmm_init` reads. What the loader promises
    is carried by the last fields: the direct map starts at a page boundary,
    and usable memory is physical memory (52 address bits on this
    architecture, cf. `PTE_PHYS_MASK`) that the direct map reaches without
    wrapping around. -/
structure BootInfo where
  hhdmOffset   : Nat
  mmap         : List BootMmapEntry
  hhdm_lt      : hhdmOffset < 2 ^ 64
  hhdm_aligned : pageSize ∣ hhdmOffset
  direct_map   : ∀ e ∈ mmap, e.type = .usable →
    e.base + e.length ≤ 2 ^ 52 ∧ hhdmOffset + (e.base + e.length) ≤ 2 ^ 64

/-- `pmm_block_t`, named by its physical address. -/
structure PmmBlock where
  phys  : Nat
  order : Nat
  deriving DecidableEq, Repr

/-- `pmm_buddy_state_t` -/
structure PmmBuddyState where
  hhdmOffset  : Nat
  memStart    : Nat
  memEnd      : Nat
  totalPages  : Nat
  usablePages : Nat
  freePages   : Nat
  orders      : Nat → List PmmBlock

/-! ## Section 2: Helpers -/

def alignUp (v a : Nat) : Nat := u64 (v + a - 1) / a * a

/-- The loop of `_pages_to_order`. The fuel covers the 64 values of `cap`
    before it becomes 0; after that the loop spins for ever. -/
def pagesToOrderLoop (pages : Nat) : Nat → Nat → Nat → Option Nat
  | 0, _, _ => none
  | fuel + 1, cap, order =>
    if cap < pages then pagesToOrderLoop pages fuel (u64 (cap * 2)) (order + 1)
    else some order

/-- `_pages_to_order`: `none` when it does not return, `some none` for `-1`. -/
def pagesToOrder (pages : Nat) : Option (Option Nat) :=
  (pagesToOrderLoop pages 65 1 0).map fun order =>
    if order > maxOrder then none else some order

/-- The direct-map pointer to a block. -/
def physToBlock (s : PmmBuddyState) (phys : Nat) : Nat := u64 (phys + s.hhdmOffset)

/-- Replaces the free list of one order. -/
def setOrder (s : PmmBuddyState) (o : Nat) (l : List PmmBlock) : PmmBuddyState :=
  { s with orders := Function.update s.orders o l }

def flPush (s : PmmBuddyState) (order phys : Nat) : PmmBuddyState :=
  setOrder s order (⟨phys, order⟩ :: s.orders order)

def flDel (s : PmmBuddyState) (order : Nat) (b : PmmBlock) : PmmBuddyState :=
  setOrder s order ((s.orders order).erase b)

/-- `_block_ptr_valid` for a pointer to a block. -/
def blockPtrValid (s : PmmBuddyState) (phys : Nat) : Bool :=
  let p := physToBlock s phys
  if p < s.hhdmOffset then false
  else
    let phys := p - s.hhdmOffset
    if phys < s.memStart ∨ phys ≥ s.memEnd then false
    else phys &&& 0xFFF = 0

/-- `_block_ptr_valid` for the `next` pointer of a list node, given the rest
    of the list: the end of the list is the head itself, which is valid. -/
def nextPtrValid (s : PmmBuddyState) : List PmmBlock → Bool
  | [] => true
  | b :: _ => blockPtrValid s b.phys

/-- The loop of `_fl_find`. -/
def flFindLoop (s : PmmBuddyState) (phys : Nat) : Nat → List PmmBlock → Option PmmBlock
  | _, [] => none
  | limit, b :: rest =>
    if !blockPtrValid s b.phys then none
    else if b.phys = phys then some b
    else if !nextPtrValid s rest then none
    else match limit with
      | 0 => none
      | limit + 1 => flFindLoop s phys limit rest

def flFind (s : PmmBuddyState) (order phys : Nat) : Option PmmBlock :=
  flFindLoop s phys (s.totalPages + 16) (s.orders order)

/-! ## Section 3: Splitting and coalescing -/

/-- The split loop shared by `_buddy_alloc_order` and `pmm_alloc_below`: while
    the block is too large, its upper half goes back on a free list. -/
def splitDown (phys order : Nat) : Nat → PmmBuddyState → PmmBuddyState
  | 0, s => s
  | found + 1, s =>
    if found + 1 > order then
      splitDown phys order found (flPush s found (u64 (phys + pageSize <<< found)))
    else s

/-- The search of `_buddy_alloc_order` for the first non-empty list. -/
def firstNonEmpty (s : PmmBuddyState) (order : Nat) : Option Nat :=
  (List.range' order (maxOrder + 1 - order)).find? fun o => !(s.orders o).isEmpty

/-- `_buddy_alloc_order`: the physical address taken, 0 when there is none. -/
def buddyAllocOrder (s : PmmBuddyState) (order : Nat) : Nat × PmmBuddyState :=
  match firstNonEmpty s order with
  | none => (0, s)
  | some found =>
    match s.orders found with
    | [] => (0, s)
    | b :: rest =>
      -- `b->prev` is the list head here, so only `b->next` can be bad
      if !nextPtrValid s rest then (0, setOrder s found [])
      else
        let s := splitDown b.phys order found (flDel s found b)
        (b.phys, { s with freePages := sub64 s.freePages (1 <<< order) })

/-- The coalescing loop of `_buddy_free_order`; the first argument is the
    number of orders left above `order`. -/
def coalesce : Nat → PmmBuddyState → Nat → Nat → PmmBuddyState × Nat × Nat
  | 0, s, phys, order => (s, phys, order)
  | n + 1, s, phys, order =>
    let buddyPhys := phys ^^^ (pageSize <<< order)
    if buddyPhys < freeMinPhys then (s, phys, order)
    else if buddyPhys < s.memStart ∨ buddyPhys ≥ s.memEnd then (s, phys, order)
    else match flFind s order buddyPhys with
      | none => (s, phys, order)
      | some b =>
        if b.order ≠ order then (s, phys, order)
        else
          coalesce n (flDel s order b) (if buddyPhys < phys then buddyPhys else phys) (order + 1)

/-- Adds to `free_pages` and clamps it to `usable_pages`. -/
def addFreePages (s : PmmBuddyState) (n : Nat) : PmmBuddyState :=
  let fp := u64 (s.freePages + n)
  { s with freePages := if fp > s.usablePages then s.usablePages else fp }

def buddyFreeOrder (s : PmmBuddyState) (phys order : Nat) : PmmBuddyState :=
  if phys < freeMinPhys then s
  else
    let (s, phys, order) := coalesce (maxOrder - order) s phys order
    addFreePages (flPush s order phys) (1 <<< order)

/-! ## Section 4: Initialisation -/

/-- The first loop of `pmm_init`: the end of usable memory and its page count. -/
def scanMmap : List BootMmapEntry → Nat → Nat → Nat × Nat
  | [], maxPhys, usable => (maxPhys, usable)
  | e :: rest, maxPhys, usable =>
    if e.type = .usable then
      let stop := u64 (e.base + e.length)
      scanMmap rest (if stop > maxPhys then stop else maxPhys)
        (u64 (usable + e.length / pageSize))
    else scanMmap rest maxPhys usable

/-- The order that `pmm_init` chooses for the next block of an entry: the
    largest one that is aligned and fits. -/
def carveOrder (base rem : Nat) : Nat → Nat
  | 0 => 0
  | o + 1 =>
    let bpages := 1 <<< (o + 1)
    if base &&& (bpages * pageSize - 1) = 0 ∧ rem ≥ bpages then o + 1
    else carveOrder base rem o

/-- The carving loop of `pmm_init` over one entry. -/
def carve (base stop : Nat) (s : PmmBuddyState) : PmmBuddyState :=
  if base < stop then
    let rem := (stop - base) >>> pageShift
    let order := carveOrder base rem maxOrder
    let s := flPush s order base
    carve (base + pageSize <<< order) stop
      { s with freePages := u64 (s.freePages + 1 <<< order) }
  else s
termination_by stop - base
decreasing_by
  have : 0 < pageSize <<< carveOrder base ((stop - base) >>> pageShift) maxOrder := by
    rw [Nat.shiftLeft_eq]
    exact Nat.mul_pos (by decide) (Nat.two_pow_pos _)
  omega

/-- The body of the second loop of `pmm_init`. -/
def initEntry (s : PmmBuddyState) (e : BootMmapEntry) : PmmBuddyState :=
  if e.type ≠ .usable then s
  else
    let base := alignUp e.base pageSize
    let stop := u64 (e.base + e.length) / pageSize * pageSize
    if base < freeMinPhys then
      let base := freeMinPhys
      if base ≥ stop then s else carve base stop s
    else carve base stop s

def pmmInit (bi : BootInfo) : PmmBuddyState :=
  let (maxPhys, usablePages) := scanMmap bi.mmap 0 0
  let maxPhys := alignUp maxPhys pageSize
  bi.mmap.foldl initEntry
    { hhdmOffset  := bi.hhdmOffset
      memStart    := 0
      memEnd      := maxPhys
      totalPages  := maxPhys >>> pageShift
      usablePages := usablePages
      freePages   := 0
      orders      := fun _ => [] }

/-! ## Section 5: The allocator's calls -/

/-- `pmm_alloc`: the pointer returned (0 for `NULL`) and the new state. -/
def pmmAlloc (s : PmmBuddyState) (pages : Nat) : Option (Nat × PmmBuddyState) :=
  if pages = 0 then some (0, s)
  else match pagesToOrder pages with
    | none => none
    | some none => some (0, s)
    | some (some order) =>
      let (phys, s) := buddyAllocOrder s order
      let phys := if phys ≠ 0 ∧ phys < freeMinPhys then 0 else phys
      some (if phys ≠ 0 then physToBlock s phys else 0, s)

/-- `pmm_alloc_zero`: clearing the pages does not touch the allocator's state. -/
def pmmAllocZero (s : PmmBuddyState) (pages : Nat) : Option (Nat × PmmBuddyState) :=
  if pages = 0 then some (0, s)
  else match pagesToOrder pages with
    | none => none
    | some none => some (0, s)
    | some (some _) => pmmAlloc s pages

/-- The search of `pmm_alloc_below`: the first block, by order and then by
    list position, that starts at or above 1 MiB and whose first `span` bytes
    end at or below `maxPhys`. -/
def findBelow (s : PmmBuddyState) (order span maxPhys : Nat) : Option (Nat × PmmBlock) :=
  (List.range' order (maxOrder + 1 - order)).findSome? fun o =>
    ((s.orders o).find? fun b =>
      !(b.phys < freeMinPhys) && !(u64 (b.phys + span) > maxPhys)).map (o, ·)

def pmmAllocBelow (s : PmmBuddyState) (pages maxPhys : Nat) :
    Option (Nat × PmmBuddyState) :=
  if pages = 0 then some (0, s)
  else match pagesToOrder pages with
    | none => none
    | some none => some (0, s)
    | some (some order) =>
      match findBelow s order (pageSize <<< order) maxPhys with
      | none => some (0, s)
      | some (o, b) =>
        let s := splitDown b.phys order o (flDel s o b)
        let s := { s with freePages := sub64 s.freePages (1 <<< order) }
        some (physToBlock s b.phys, s)

def pmmFree (s : PmmBuddyState) (addr pages : Nat) : Option PmmBuddyState :=
  if addr = 0 ∨ pages = 0 then some s
  else
    let phys := sub64 addr s.hhdmOffset
    if phys < s.memStart ∨ phys ≥ s.memEnd then some s
    else if phys < freeMinPhys then some s
    else match pagesToOrder pages with
      | none => none
      | some none => some s
      | some (some order) =>
        if (flFind s order phys).isSome then some s
        else some (buddyFreeOrder s phys order)

end Cervus.Pmm
