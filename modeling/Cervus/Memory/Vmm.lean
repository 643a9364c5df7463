import Cervus.Framework.Radix
import Cervus.Memory.Pmm

/-! # Page tables

    The model of `memory/vmm.c`. Physical memory is a store of pages of 512
    words; a page table is a page, named by its physical address, and its
    entries are the words. The functions read and write it through the direct
    map, so a pointer to a table is its physical address here.

    A pagemap is given by its top table; 0 stands for a `NULL` pagemap (or one
    without a table). A call that never returns (`alloc_table` halts when memory
    has run out) has no result. Instructions that only concern the TLB are left
    out. -/

namespace Cervus.Vmm

open Cervus.Pmm

/-! ## Section 1: Page table entries -/

/-- `vmm_pte_t` -/
abbrev Pte := BitVec 64

/-- The `VMM_*` bits. -/
def vmmPresent : Pte := BitVec.twoPow 64 0

@[inherit_doc vmmPresent] def vmmWrite : Pte := BitVec.twoPow 64 1

@[inherit_doc vmmPresent] def vmmUser : Pte := BitVec.twoPow 64 2

@[inherit_doc vmmPresent] def vmmPse : Pte := BitVec.twoPow 64 7

@[inherit_doc vmmPresent] def vmmShared : Pte := BitVec.twoPow 64 9

@[inherit_doc vmmPresent] def vmmNoexec : Pte := BitVec.twoPow 64 63

def ptePhysMask : Pte := 0x000FFFFFFFFFF000#64

/-- The test `e & flag`. -/
def hasFlag (e flag : Pte) : Bool := e &&& flag != 0#64

/-- The physical address in an entry, `e & PTE_PHYS_MASK`. -/
def physOf (e : Pte) : Nat := (e &&& ptePhysMask).toNat

/-! ## Section 2: State -/

instance neZero_512 : NeZero 512 := ⟨by decide⟩

/-- Physical memory, the page allocator, whether the CPU has no-execute pages
    (it decides `g_pte_mask`) and the table of the kernel's own pagemap. -/
structure VmState where
  mem : Nat → Fin 512 → Pte
  pmm : PmmBuddyState
  hasNx : Bool
  kernelPml4 : Nat

/-- `g_pte_mask` -/
def VmState.pteMask (st : VmState) : Pte := if st.hasNx then ~~~0#64 else ~~~vmmNoexec

/-- `table[index] = e` -/
def VmState.write (st : VmState) (table : Nat) (index : Fin 512) (e : Pte) : VmState :=
  { st with mem := Radix.set st.mem table index e }

/-- All words of a page. -/
def VmState.fillPage (st : VmState) (page : Nat) (words : Fin 512 → Pte) : VmState :=
  { st with mem := Radix.fill st.mem page words }

def pmmVirtToPhys (s : PmmBuddyState) (vaddr : Nat) : Nat := sub64 vaddr s.hhdmOffset

/-- `pmm_alloc_zero(1)`: a cleared page, by physical address; 0 when there is none. -/
def allocPage (st : VmState) : Option (Nat × VmState) :=
  match pmmAllocZero st.pmm 1 with
  | none => none
  | some (ptr, pmm) =>
    if ptr = 0 then some (0, { st with pmm })
    else
      let page := pmmVirtToPhys pmm ptr
      some (page, { st with pmm }.fillPage page fun _ => 0#64)

/-- `alloc_table`: it halts when there is no page. -/
def allocTable (st : VmState) : Option (Nat × VmState) :=
  match allocPage st with
  | none => none
  | some (page, st) => if page = 0 then none else some (page, st)

/-! ## Section 3: Walking and mapping -/

/-- `(virt >> shift) & MASK` -/
def tableIndex (virt : BitVec 64) (shift : Nat) : Fin 512 :=
  ⟨(virt >>> shift &&& 0x1FF#64).toNat, by
    rw [BitVec.toNat_and]
    exact Nat.lt_of_le_of_lt Nat.and_le_right (by decide)⟩

def pml4Index (virt : BitVec 64) : Fin 512 := tableIndex virt 39

def pdptIndex (virt : BitVec 64) : Fin 512 := tableIndex virt 30

def pdIndex (virt : BitVec 64) : Fin 512 := tableIndex virt 21

def ptIndex (virt : BitVec 64) : Fin 512 := tableIndex virt 12

/-- `get_table`: the table an entry points to, created if the entry is absent;
    `some none` when the entry is a large page. -/
def getTable (st : VmState) (parent : Nat) (index : Fin 512) (flags : Pte) :
    Option (Option Nat × VmState) :=
  let e := st.mem parent index
  if !hasFlag e vmmPresent then
    match allocTable st with
    | none => none
    | some (table, st) =>
      let e := BitVec.ofNat 64 table ||| vmmPresent ||| vmmWrite ||| (flags &&& vmmUser)
      let st := st.write parent index e
      some (some (physOf (st.mem parent index)), st)
  else if hasFlag e vmmPse then some (none, st)
  else
    let st := if hasFlag flags vmmUser then st.write parent index (e ||| vmmUser) else st
    some (some (physOf (st.mem parent index)), st)

def vmmMapPage (st : VmState) (pml4 : Nat) (virt phys : BitVec 64) (flags : Pte) :
    Option (Bool × VmState) :=
  if pml4 = 0 then some (false, st)
  else match getTable st pml4 (pml4Index virt) flags with
    | none => none
    | some (none, st) => some (false, st)
    | some (some pdpt, st) =>
      match getTable st pdpt (pdptIndex virt) flags with
      | none => none
      | some (none, st) => some (false, st)
      | some (some pd, st) =>
        match getTable st pd (pdIndex virt) flags with
        | none => none
        | some (none, st) => some (false, st)
        | some (some pt, st) =>
          some (true, st.write pt (ptIndex virt)
            (((phys &&& ptePhysMask) ||| flags ||| vmmPresent) &&& st.pteMask))

def vmmVirtToPhys (st : VmState) (pml4 : Nat) (virt : BitVec 64) : Option (BitVec 64) :=
  let e4 := st.mem pml4 (pml4Index virt)
  if pml4 = 0 then none
  else if !hasFlag e4 vmmPresent then none
  else
    let e3 := st.mem (physOf e4) (pdptIndex virt)
    if !hasFlag e3 vmmPresent then none
    else if hasFlag e3 vmmPse then
      some ((e3 &&& ptePhysMask &&& ~~~0x3FFFFFFF#64) ||| (virt &&& 0x3FFFFFFF#64))
    else
      let e2 := st.mem (physOf e3) (pdIndex virt)
      if !hasFlag e2 vmmPresent then none
      else if hasFlag e2 vmmPse then
        some ((e2 &&& ptePhysMask &&& ~~~0x1FFFFF#64) ||| (virt &&& 0x1FFFFF#64))
      else
        let e1 := st.mem (physOf e2) (ptIndex virt)
        if !hasFlag e1 vmmPresent then none
        else some ((e1 &&& ptePhysMask) ||| (virt &&& 0xFFF#64))

/-- The bits `vmm_get_page_flags` reports, `0xFFF | (1ULL << 63)`. -/
def flagBits : Pte := 0xFFF#64 ||| vmmNoexec

def vmmGetPageFlags (st : VmState) (pml4 : Nat) (virt : BitVec 64) : Option Pte :=
  let e4 := st.mem pml4 (pml4Index virt)
  if pml4 = 0 then none
  else if !hasFlag e4 vmmPresent then none
  else
    let e3 := st.mem (physOf e4) (pdptIndex virt)
    if !hasFlag e3 vmmPresent then none
    else if hasFlag e3 vmmPse then some (e3 &&& flagBits)
    else
      let e2 := st.mem (physOf e3) (pdIndex virt)
      if !hasFlag e2 vmmPresent then none
      else if hasFlag e2 vmmPse then some (e2 &&& flagBits)
      else
        let e1 := st.mem (physOf e2) (ptIndex virt)
        if !hasFlag e1 vmmPresent then none else some (e1 &&& flagBits)

/-- The indices of the top table below and from 256: user and kernel addresses. -/
def userHalf : List (Fin 512) := (List.finRange 512).filter fun i => i.val < 256

@[inherit_doc userHalf]
def kernelHalf : List (Fin 512) := (List.finRange 512).filter fun i => 256 ≤ i.val

/-- The kernel's entries, one after another. -/
def copyKernelHalf (st : VmState) (pml4 : Nat) : VmState :=
  kernelHalf.foldl (fun st i => st.write pml4 i (st.mem st.kernelPml4 i)) st

/-- `vmm_create_pagemap`: the page of the `vmm_pagemap_t`, the top table; 0 and 0
    when there is no page for the former. -/
def vmmCreatePagemap (st : VmState) : Option ((Nat × Nat) × VmState) :=
  match allocPage st with
  | none => none
  | some (map, st) =>
    if map = 0 then some ((0, 0), st)
    else match allocTable st with
      | none => none
      | some (pml4, st) => some ((map, pml4), copyKernelHalf st pml4)

/-! ## Section 4: Cloning -/

/-- The loop of `vmm_clone_pagemap` over a page table. -/
def clonePageEntry (src dst : Nat) (st : VmState) (i : Fin 512) : Option VmState :=
  let e := st.mem src i
  if !hasFlag e vmmPresent then some st
  else if hasFlag e vmmShared then some (st.write dst i e)
  else if physOf e < freeMinPhys then some st
  else match allocPage st with
    | none => none
    | some (page, st) =>
      if page = 0 then some st
      else
        let st := st.fillPage page (st.mem (physOf e))
        some (st.write dst i
          (BitVec.ofNat 64 page ||| (e &&& flagBits)))

/-- The 512 pages of a large page, one after another. -/
def copyPages (st : VmState) (src dst : Nat) : VmState :=
  (List.range 512).foldl
    (fun st k => st.fillPage (dst + k * pageSize) (st.mem (src + k * pageSize))) st

/-- The branch for a 2 MiB page. -/
def cloneHugeEntry (dst : Nat) (st : VmState) (i : Fin 512) (e : Pte) : Option VmState :=
  match pmmAlloc st.pmm 512 with
  | none => none
  | some (ptr, pmm) =>
    let st := { st with pmm }
    if ptr = 0 then some st
    else
      let addr := ptePhysMask &&& ~~~0x1FFFFF#64
      let page := pmmVirtToPhys pmm ptr
      let st := copyPages st (e &&& addr).toNat page
      some (st.write dst i ((BitVec.ofNat 64 page &&& addr) ||| (e &&& ~~~addr)))

/-- The nested loops of `vmm_clone_pagemap`: level 0 is a page table, 1 a page
    directory (the only level where a large page is recognised), 2 a page
    directory pointer table and 3 the top table. -/
def cloneTable : Nat → Nat → Nat → VmState → List (Fin 512) → Option VmState
  | 0, src, dst, st, is => is.foldlM (clonePageEntry src dst) st
  | level + 1, src, dst, st, is =>
    is.foldlM (fun st i =>
      let e := st.mem src i
      if !hasFlag e vmmPresent then some st
      else if level = 0 ∧ hasFlag e vmmPse then cloneHugeEntry dst st i e
      else match allocTable st with
        | none => none
        | some (table, st) =>
          let st := st.write dst i (BitVec.ofNat 64 table ||| (e &&& 0xFFF#64))
          cloneTable level (physOf e) table st (List.finRange 512)) st

/-- `vmm_clone_pagemap`: the page of the new `vmm_pagemap_t` and its top table;
    0 and 0 for `NULL`. -/
def vmmClonePagemap (st : VmState) (src : Nat) : Option ((Nat × Nat) × VmState) :=
  if src = 0 then some ((0, 0), st)
  else match allocPage st with
    | none => none
    | some (map, st) =>
      if map = 0 then some ((0, 0), st)
      else match allocTable st with
        | none => none
        | some (pml4, st) =>
          match cloneTable 3 src pml4 (copyKernelHalf st pml4) userHalf with
          | none => none
          | some st => some ((map, pml4), st)

/-! ## Section 5: Unmapping and freeing -/

def pmmPhysToVirt (s : PmmBuddyState) (phys : Nat) : Nat := u64 (phys + s.hhdmOffset)

/-- `pmm_free` of a page given by its physical address. -/
def VmState.free (st : VmState) (phys pages : Nat) : Option VmState :=
  (pmmFree st.pmm (pmmPhysToVirt st.pmm phys) pages).map fun pmm => { st with pmm }

/-- The same behind the test `phys >= PMM_FREE_MIN_PHYS`. -/
def VmState.freeFrom (st : VmState) (phys pages : Nat) : Option VmState :=
  if freeMinPhys ≤ phys then st.free phys pages else some st

/-- `vmm_unmap_page`. It does not look for large pages on its way down. -/
def vmmUnmapPage (st : VmState) (pml4 : Nat) (virt : BitVec 64) : Option VmState :=
  let e4 := st.mem pml4 (pml4Index virt)
  if !hasFlag e4 vmmPresent then some st
  else
    let e3 := st.mem (physOf e4) (pdptIndex virt)
    if !hasFlag e3 vmmPresent then some st
    else
      let e2 := st.mem (physOf e3) (pdIndex virt)
      if !hasFlag e2 vmmPresent then some st
      else
        let pt := physOf e2
        let e1 := st.mem pt (ptIndex virt)
        if !hasFlag e1 vmmPresent then some st
        else
          let st := st.write pt (ptIndex virt) 0#64
          if hasFlag e1 vmmShared then some st else st.freeFrom (physOf e1) 1

/-- The loop of `vmm_free_pagemap` over a page table. -/
def freePageEntry (n : Nat) (st : VmState) (i : Fin 512) : Option VmState :=
  let e := st.mem n i
  if !hasFlag e vmmPresent then some st
  else if hasFlag e vmmShared then some st
  else st.freeFrom (physOf e) 1

/-- The address of a 2 MiB page, `e & PTE_PHYS_MASK & ~0x1FFFFF`. -/
def hugePhysOf (e : Pte) : Nat := (e &&& ptePhysMask &&& ~~~0x1FFFFF#64).toNat

/-- The nested loops of `vmm_free_pagemap`, with levels as in `cloneTable`. -/
def freeTable : Nat → Nat → VmState → List (Fin 512) → Option VmState
  | 0, n, st, is => is.foldlM (freePageEntry n) st
  | level + 1, n, st, is =>
    is.foldlM (fun st i =>
      let e := st.mem n i
      if !hasFlag e vmmPresent then some st
      else if level = 0 ∧ hasFlag e vmmPse then st.freeFrom (hugePhysOf e) 512
      else match freeTable level (physOf e) st (List.finRange 512) with
        | none => none
        | some st => st.freeFrom (physOf (st.mem n i)) 1) st

/-- `vmm_free_pagemap`, on the page of a `vmm_pagemap_t` and its top table. -/
def vmmFreePagemap (st : VmState) (map pml4 : Nat) : Option VmState :=
  if map = 0 ∨ pml4 = 0 then some st
  else match freeTable 3 pml4 st userHalf with
    | none => none
    | some st => match st.free pml4 1 with
      | none => none
      | some st => st.free map 1

end Cervus.Vmm
