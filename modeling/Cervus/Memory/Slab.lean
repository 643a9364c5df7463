import Cervus.Framework.Linked
import Cervus.Framework.System
import Cervus.Memory.PmmInvariant
import Mathlib.Data.Fin.VecNotation

/-! # The slab allocator

    The model of `kmalloc` and `kfree` of `memory/pmm.c`, for objects of up to
    4096 bytes. Memory is a store of 8-byte words, addressed by bytes; a slab is
    named by the address of its header. The header, the slots and the free list
    threaded through them all lie in that store, so that the test of `kfree` for
    large allocations, which reads the word before an object, reads what is there.

    A section under the slab lock is one step; `kmalloc` drops the lock to make a
    new slab, `kfree` before it gives a page back. Requests above `SLAB_MAX_SIZE`
    are not modelled. The allocator's words in free pages are not either: a page
    is cleared when it is taken. -/

namespace Cervus.Slab

open Cervus.Pmm Cervus.Linked

/-! ## Section 1: Sizes -/

def slabMaxSize : Nat := 4096

def gSizeClasses : Fin 10 → Nat := ![8, 16, 32, 64, 128, 256, 512, 1024, 2048, 4096]

/-- `sizeof(slab_t)` -/
def slabHdr : Nat := 32

def largeAllocMagic : Nat := 0xDEADBEEFCAFEBABE

def slabObjStart (s : Nat) : Nat := alignUp (s + slabHdr) 8

def slabPages (objSize : Nat) : Nat :=
  let hdrEnd := alignUp slabHdr 8
  if objSize ≤ pageSize - hdrEnd then 1 else if objSize ≤ pageSize then 2 else 0

/-- `_slab_capacity`: the result is a `uint16_t`. -/
def slabCapacity (objSize : Nat) : Nat :=
  let pages := slabPages objSize
  if pages = 0 then 0
  else
    let objStart := alignUp slabHdr 8
    let avail := pages * pageSize - objStart
    avail / objSize % 2 ^ 16

/-! ## Section 2: Headers -/

/-- Words by byte address. -/
abbrev Mem := Nat → Nat

/-- The `k`-th 16-bit field of a word. -/
def field16 (w k : Nat) : Nat := w / 2 ^ (16 * k) % 2 ^ 16

/-- The word with its `k`-th 16-bit field replaced. -/
def setField16 (w k v : Nat) : Nat :=
  w - field16 w k * 2 ^ (16 * k) + v % 2 ^ 16 * 2 ^ (16 * k)

/-- `s->freelist` -/
def freelistOf (m : Mem) (s : Nat) : Nat := m (s + 16)

/-- `s->obj_size`, `s->total` and `s->used` share the fourth word. -/
def objSizeOf (m : Mem) (s : Nat) : Nat := field16 (m (s + 24)) 0

@[inherit_doc objSizeOf] def totalOf (m : Mem) (s : Nat) : Nat := field16 (m (s + 24)) 1

@[inherit_doc objSizeOf] def usedOf (m : Mem) (s : Nat) : Nat := field16 (m (s + 24)) 2

def setFreelist (m : Mem) (s v : Nat) : Mem := write m (s + 16) v

def setField (m : Mem) (s k v : Nat) : Mem := write m (s + 24) (setField16 (m (s + 24)) k v)

/-- `memset(a, 0, n)` -/
def clear (m : Mem) (a n : Nat) : Mem := fun b => if a ≤ b ∧ b < a + n then 0 else m b

/-- `_slab_list_push`: `next` is the first word of a header, `prev` the second. -/
def slabListPush (m : Mem) (head s : Nat) : Mem × Nat := push 8 m head s

def slabListRemove (m : Mem) (head s : Nat) : Mem × Nat := unlink 8 m head s

/-! ## Section 3: State and operations -/

/-- `slab_cache_t`; the object size of cache `c` is `gSizeClasses c`. -/
structure SlabCache where
  partialHead : Nat
  fullHead    : Nat
  totalAllocs : Nat
  totalFrees  : Nat

/-- Memory, the page allocator and `g_caches`. -/
structure SlabState where
  mem    : Mem
  pmm    : PmmBuddyState
  caches : Fin 10 → SlabCache

def SlabState.setCache (st : SlabState) (c : Fin 10) (cache : SlabCache) : SlabState :=
  { st with caches := fun d => if d = c then cache else st.caches d }

/-- The loop of `_slab_new`: every slot points to the next one. -/
def linkSlots (m : Mem) (start objSize total : Nat) : Mem :=
  (List.range total).foldl (fun m i =>
    write m (start + i * objSize) (if i + 1 < total then start + (i + 1) * objSize else 0)) m

/-- The header and the slots of a new slab, on cleared pages. -/
def initSlab (m : Mem) (s objSize cap : Nat) : Mem :=
  let m := setField m s 0 objSize
  let m := setField m s 1 cap
  let m := setField m s 2 0
  let m := write m (s + 8) 0
  let m := write m s 0
  let start := slabObjStart s
  let m := setFreelist m s start
  linkSlots m start objSize (totalOf m s)

/-- `_slab_new`; 0 for `NULL`, no result if the allocator does not return. -/
def slabNew (st : SlabState) (c : Fin 10) : Option (Nat × SlabState) :=
  let cap := slabCapacity (gSizeClasses c)
  if cap = 0 then some (0, st)
  else
    let pages := slabPages (gSizeClasses c)
    match pmmAllocZero st.pmm pages with
    | none => none
    | some (s, pmm) =>
      if s = 0 then some (0, { st with pmm })
      else
        let mem := clear st.mem s (pages * pageSize)
        some (s, { st with pmm, mem := initSlab mem s (gSizeClasses c) cap })

def cacheFor (size : Nat) : Option (Fin 10) :=
  (List.finRange 10).find? fun c => size ≤ gSizeClasses c

/-- `obj = s->freelist; s->freelist = *(void **)obj; s->used++`, on memory. -/
def takeSlot (m : Mem) (s obj : Nat) : Mem :=
  let m := setFreelist m s (m obj)
  setField m s 2 (usedOf m s + 1)

/-- The end of `kmalloc`'s critical section: the first object of the first slab that
    has one, by address. -/
def takeObject (st : SlabState) (c : Fin 10) : Nat × SlabState :=
  let cache := st.caches c
  let s := cache.partialHead
  let obj := freelistOf st.mem s
  let m := takeSlot st.mem s obj
  let cache := { cache with totalAllocs := cache.totalAllocs + 1 }
  if usedOf m s = totalOf m s then
    let r := slabListRemove m cache.partialHead s
    let r' := slabListPush r.1 cache.fullHead s
    (obj, { st with mem := r'.1 }.setCache c
      { cache with partialHead := r.2, fullHead := r'.2 })
  else (obj, { st with mem := m }.setCache c cache)

/-- What the first critical section of `kmalloc` leads to. -/
inductive KmallocEntry where
  | null
  | grow (c : Fin 10)
  | object (obj : Nat) (st : SlabState)

/-- The first critical section of `kmalloc`. -/
def kmallocEnter (st : SlabState) (size : Nat) : KmallocEntry :=
  match cacheFor size with
  | none => .null
  | some c =>
    if (st.caches c).partialHead = 0 then .grow c
    else
      let r := takeObject st c
      .object r.1 r.2

/-- The second one, after a new slab was made. -/
def installSlab (st : SlabState) (c : Fin 10) (s : Nat) : Nat × SlabState :=
  let cache := st.caches c
  let r := slabListPush st.mem cache.partialHead s
  takeObject ({ st with mem := r.1 }.setCache c { cache with partialHead := r.2 }) c

/-- `_is_large_alloc`: the word two before the object. -/
def isLargeAlloc (m : Mem) (ptr : Nat) : Bool := m (sub64 ptr 16) == largeAllocMagic

/-- The slab of an object, `ptr & ~(PAGE_SIZE - 1)`. -/
def slabOf (ptr : Nat) : Nat := ptr / pageSize * pageSize

/-- The cache that `kfree` finds for an object size. -/
def cacheOf (objSize : Nat) : Option (Fin 10) :=
  (List.finRange 10).find? fun c => gSizeClasses c = objSize

/-- `*(void **)ptr = s->freelist; s->freelist = ptr; s->used--`, on memory. -/
def freeSlot (m : Mem) (s ptr : Nat) : Mem :=
  let m := write m ptr (freelistOf m s)
  let m := setFreelist m s ptr
  setField m s 2 (usedOf m s + 2 ^ 16 - 1)

/-- `if (was_full)`: the slab goes to the partial list. -/
def refile (m : Mem) (cache : SlabCache) (s : Nat) (wasFull : Bool) : Mem × SlabCache :=
  if wasFull then
    let r := slabListRemove m cache.fullHead s
    let r' := slabListPush r.1 cache.partialHead s
    (r'.1, { cache with fullHead := r.2, partialHead := r'.2 })
  else (m, cache)

/-- The critical section of `kfree`; the second component is the slab to give back
    to the page allocator and its number of pages. -/
def releaseObject (st : SlabState) (ptr : Nat) : SlabState × Option (Nat × Nat) :=
  let s := slabOf ptr
  match cacheOf (objSizeOf st.mem s) with
  | none => (st, none)
  | some c =>
    let cache := st.caches c
    let wasFull := usedOf st.mem s == totalOf st.mem s
    let m := freeSlot st.mem s ptr
    let cache := { cache with totalFrees := cache.totalFrees + 1 }
    let r := refile m cache s wasFull
    let m := r.1
    let cache := r.2
    if usedOf m s = 0 then
      let r := slabListRemove m cache.partialHead s
      let pages := slabPages (objSizeOf r.1 s)
      ({ st with mem := r.1 }.setCache c { cache with partialHead := r.2 },
        some (s, if 0 < pages then pages else 1))
    else ({ st with mem := m }.setCache c cache, none)

/-! ## Section 4: The system -/

/-- Where a CPU is in a call: making a new slab (with the lock free), about to take
    the lock again for it, about to take the lock to free an object, about to give a
    slab's pages back. `large` is the branch of `kfree` for large allocations. -/
inductive Pc where
  | idle
  | grow (c : Fin 10) (size : Nat)
  | install (c : Fin 10) (size s : Nat)
  | release (ptr : Nat)
  | giveBack (s pages : Nat)
  | large (ptr : Nat)

/-- The result of a `kmalloc(size)`. -/
structure Obj where
  ptr  : Nat
  size : Nat
  deriving DecidableEq, Repr

/-- The machine, with two histories: the slabs made and not given back, with their
    caches, and the objects allocated and not freed. -/
structure SlabSys (Cpu : Type) where
  st    : SlabState
  pc    : Cpu → Pc
  slabs : List (Nat × Fin 10)
  live  : List Obj

/-- The bytes of a slab. -/
def slabLen (c : Fin 10) : Nat := slabPages (gSizeClasses c) * pageSize

/-- The address lies in the slab. -/
def InSlab (x : Nat × Fin 10) (a : Nat) : Prop := x.1 ≤ a ∧ a < x.1 + slabLen x.2

inductive SlabLabel (Cpu : Type) where
  | kmalloc (cpu : Cpu) (size : Nat)
  | grow (cpu : Cpu)
  | install (cpu : Cpu)
  | kfree (cpu : Cpu) (a : Obj)
  | release (cpu : Cpu)
  | giveBack (cpu : Cpu)
  | store (a : Obj) (addr v : Nat)
  | other (mem : Mem) (pmm : PmmBuddyState)

section System

variable {Cpu : Type} [DecidableEq Cpu]

def SlabSys.setPc (sys : SlabSys Cpu) (cpu : Cpu) (pc : Pc) : SlabSys Cpu :=
  { sys with pc := fun k => if k = cpu then pc else sys.pc k }

/-- One step: a section of `kmalloc` or `kfree`; a store into a live object, of
    anything but the magic number; or whatever the rest of the kernel does to its own
    memory and to pages that are not part of slabs. -/
def SlabStep (sys : SlabSys Cpu) : SlabLabel Cpu → SlabSys Cpu → Prop
  | .kmalloc cpu size, sys' => sys.pc cpu = .idle ∧ 1 ≤ size ∧ size ≤ slabMaxSize ∧
      sys' = match kmallocEnter sys.st size with
        | .null => sys
        | .grow c => sys.setPc cpu (.grow c size)
        | .object obj st => { sys with st, live := ⟨obj, size⟩ :: sys.live }
  | .grow cpu, sys' => ∃ c size s st, sys.pc cpu = .grow c size ∧
      slabNew sys.st c = some (s, st) ∧
      sys' = if s = 0 then { sys with st }.setPc cpu .idle
        else { sys with st, slabs := (s, c) :: sys.slabs }.setPc cpu (.install c size s)
  | .install cpu, sys' => ∃ c size s, sys.pc cpu = .install c size s ∧
      let r := installSlab sys.st c s
      sys' = { sys with st := r.2, live := ⟨r.1, size⟩ :: sys.live }.setPc cpu .idle
  | .kfree cpu a, sys' => sys.pc cpu = .idle ∧ a ∈ sys.live ∧
      (∀ k, sys.pc k ≠ .release a.ptr) ∧
      sys' = sys.setPc cpu (if isLargeAlloc sys.st.mem a.ptr then .large a.ptr else .release a.ptr)
  | .release cpu, sys' => ∃ ptr, sys.pc cpu = .release ptr ∧
      let r := releaseObject sys.st ptr
      sys' = { sys with st := r.1, live := sys.live.filter fun a => a.ptr ≠ ptr }.setPc cpu
        (match r.2 with
          | none => .idle
          | some (s, pages) => .giveBack s pages)
  | .giveBack cpu, sys' => ∃ s pages pmm, sys.pc cpu = .giveBack s pages ∧
      pmmFree sys.st.pmm s pages = some pmm ∧
      sys' = { sys with st := { sys.st with pmm },
                        slabs := sys.slabs.filter fun x => x.1 ≠ s }.setPc cpu .idle
  | .store a addr v, sys' => a ∈ sys.live ∧ a.ptr ≤ addr ∧ addr < a.ptr + a.size ∧ 8 ∣ addr ∧
      v ≠ largeAllocMagic ∧ sys' = { sys with st := { sys.st with mem := write sys.st.mem addr v } }
  | .other mem pmm, sys' => Wf pmm ∧ SameRegion sys.st.pmm pmm ∧
      (∀ x ∈ sys.slabs, ∀ a, InSlab x a → mem a = sys.st.mem a ∧
        (a - pmm.hhdmOffset) / pageSize ∉ freeFrames pmm) ∧
      sys' = { sys with st := { sys.st with mem, pmm } }

/-- The system from `slab_init` on. -/
def slabSystem (Cpu : Type) [DecidableEq Cpu] : System (SlabSys Cpu) (SlabLabel Cpu) where
  init := fun sys => Wf sys.st.pmm ∧ pageSize ∣ sys.st.pmm.hhdmOffset ∧
    (∀ c, sys.st.caches c = ⟨0, 0, 0, 0⟩) ∧ (∀ cpu, sys.pc cpu = .idle) ∧
    sys.slabs = [] ∧ sys.live = []
  step := SlabStep

end System

end Cervus.Slab
