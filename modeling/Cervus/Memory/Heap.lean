import Cervus.Memory.SlabRuns

/-! # The kernel heap

    `kmalloc`, `kfree` and `krealloc` for objects of every size: the slab allocator, and
    large allocations, which are pages with a header of their own. A pointer does not say
    which of the two it comes from; `kfree` and `krealloc` look at the word two before it.

    The system adds to the slab allocator's the large allocations that are live, and lets
    the owners of objects store what they like. What follows when `kfree` takes an object
    of a slab for a large allocation is not modelled: the CPU stays where it is. Page
    frames behind `vmalloc` ranges are taken and given back by steps of the rest of the
    kernel. -/

namespace Cervus.Slab

open Cervus.Pmm Cervus.Linked

/-! ## Section 1: Large allocations -/

def vmallocMinPages : Nat := 256

def vmallocBase : Nat := 0xFFFFFC0000000000

def vmallocEnd : Nat := vmallocBase + 0x200000 * 2048

/-- `sizeof(large_hdr_t)` -/
def largeHdrSize : Nat := 16

def vmallocOwns (a : Nat) : Prop := vmallocBase ≤ a ∧ a < vmallocEnd

instance (a : Nat) : Decidable (vmallocOwns a) := inferInstanceAs (Decidable (_ ∧ _))

/-- The number of pages that `kmalloc` takes for a large object. -/
def largePages (size : Nat) : Nat := u64 (size + largeHdrSize + pageSize - 1) / pageSize

/-- `hdr->magic = LARGE_ALLOC_MAGIC; hdr->pages = pages` -/
def writeLargeHdr (m : Mem) (hdr pages : Nat) : Mem :=
  write (write m hdr largeAllocMagic) (hdr + 8) pages

/-- The branch that `kfree` takes. -/
def kfreeEnter (m : Mem) (ptr : Nat) : Pc :=
  if isLargeAlloc m ptr then .large ptr else .release ptr

/-- The size that `krealloc` takes an object to have. -/
def kreallocOldSize (m : Mem) (ptr : Nat) : Nat :=
  if isLargeAlloc m ptr then
    let hdr := sub64 ptr largeHdrSize
    sub64 (u64 (m (hdr + 8) * pageSize)) largeHdrSize
  else
    let s := slabOf ptr
    objSizeOf m s

/-- A live large allocation: its header, its number of pages and the size asked for. -/
structure Large where
  hdr   : Nat
  pages : Nat
  size  : Nat
  deriving DecidableEq, Repr

def Large.ptr (b : Large) : Nat := b.hdr + largeHdrSize

/-- The bytes behind a large allocation; the page allocator rounds up. -/
def Large.len (b : Large) : Nat :=
  if vmallocOwns b.hdr then b.pages * pageSize
  else pageSize * 2 ^ (pagesToOrder b.pages).join.getD 0

def Large.Has (b : Large) (a : Nat) : Prop := b.hdr ≤ a ∧ a < b.hdr + b.len

/-! ## Section 2: The system -/

/-- The slab allocator and the live large allocations. -/
structure HeapSys (Cpu : Type) where
  sys    : SlabSys Cpu
  larges : List Large

def HeapSys.mem {Cpu : Type} (h : HeapSys Cpu) : Mem := h.sys.st.mem

inductive HeapLabel (Cpu : Type) where
  | slab (l : SlabLabel Cpu)
  | kfree (cpu : Cpu) (a : Obj)
  | store (a : Obj) (addr v : Nat)
  | kmallocLarge (size : Nat)
  | vmallocLarge (size base : Nat)
  | storeLarge (b : Large) (addr v : Nat)
  | kfreeLarge (b : Large)
  | other (mem : Mem) (pmm : PmmBuddyState)

/-- The sections of `kmalloc` and `kfree` on slabs, but for the test of `kfree`. -/
def SlabLabel.Section {Cpu : Type} : SlabLabel Cpu → Prop
  | .kmalloc _ _ => True
  | .grow _ => True
  | .install _ => True
  | .release _ => True
  | .giveBack _ => True
  | .kfree _ _ => False
  | .store _ _ _ => False
  | .other _ _ => False

section System

variable {Cpu : Type} [DecidableEq Cpu]

def HeapSys.setMem (h : HeapSys Cpu) (mem : Mem) : HeapSys Cpu :=
  { h with sys := { h.sys with st := { h.sys.st with mem } } }

def HeapSys.setPmm (h : HeapSys Cpu) (pmm : PmmBuddyState) : HeapSys Cpu :=
  { h with sys := { h.sys with st := { h.sys.st with pmm } } }

/-- One step: a section of a call on slabs; the test of `kfree` on a slab object; a store
    of any value into a live object of either kind; a large `kmalloc` from the page
    allocator or from `vmalloc`, which returns an unused range of its area; the `kfree` of
    a large allocation; or what the rest of the kernel does to its own memory and pages. -/
def HeapStep (h : HeapSys Cpu) : HeapLabel Cpu → HeapSys Cpu → Prop
  | .slab l, h' => l.Section ∧ ∃ sys', SlabStep h.sys l sys' ∧ h' = { h with sys := sys' }
  | .kfree cpu a, h' => h.sys.pc cpu = .idle ∧ a ∈ h.sys.live ∧
      (∀ k, h.sys.pc k ≠ .release a.ptr ∧ h.sys.pc k ≠ .large a.ptr) ∧
      h' = { h with sys := h.sys.setPc cpu (kfreeEnter h.mem a.ptr) }
  | .store a addr v, h' => a ∈ h.sys.live ∧ a.ptr ≤ addr ∧ addr < a.ptr + a.size ∧ 8 ∣ addr ∧
      h' = h.setMem (write h.mem addr v)
  | .kmallocLarge size, h' => slabMaxSize < size ∧ size < 2 ^ 64 ∧
      ∃ p pmm, pmmAllocZero h.sys.st.pmm (largePages size) = some (p, pmm) ∧
      let pages := largePages size
      h' = if p = 0 then h.setPmm pmm
        else { (h.setPmm pmm).setMem (writeLargeHdr (clear h.mem p (pages * pageSize)) p pages) with
          larges := ⟨p, pages, size⟩ :: h.larges }
  | .vmallocLarge size base, h' => slabMaxSize < size ∧ size < 2 ^ 64 ∧
      let pages := largePages size
      vmallocMinPages ≤ pages ∧ pageSize ∣ base ∧ vmallocBase ≤ base ∧
      base + pages * pageSize ≤ vmallocEnd ∧
      (∀ b ∈ h.larges, vmallocOwns b.hdr → ∀ a, b.Has a →
        ¬ (base ≤ a ∧ a < base + pages * pageSize)) ∧
      h' = { h.setMem (writeLargeHdr (clear h.mem base (pages * pageSize)) base pages) with
        larges := ⟨base, pages, size⟩ :: h.larges }
  | .storeLarge b addr v, h' => b ∈ h.larges ∧ b.ptr ≤ addr ∧ addr < b.ptr + b.size ∧
      b.Has addr ∧ 8 ∣ addr ∧ h' = h.setMem (write h.mem addr v)
  | .kfreeLarge b, h' => b ∈ h.larges ∧ isLargeAlloc h.mem b.ptr = true ∧
      ∃ pmm, (if vmallocOwns b.hdr then pmm = h.sys.st.pmm
        else pmmFree h.sys.st.pmm b.hdr (h.mem (b.hdr + 8)) = some pmm) ∧
      h' = { (h.setPmm pmm).setMem (write h.mem b.hdr 0) with larges := h.larges.erase b }
  | .other mem pmm, h' => Wf pmm ∧ SameRegion h.sys.st.pmm pmm ∧
      (∀ x ∈ h.sys.slabs, ∀ a, InSlab x a → mem a = h.mem a ∧
        (a - pmm.hhdmOffset) / pageSize ∉ freeFrames pmm) ∧
      (∀ b ∈ h.larges, ∀ a, b.Has a → mem a = h.mem a ∧
        (¬ vmallocOwns b.hdr → (a - pmm.hhdmOffset) / pageSize ∉ freeFrames pmm)) ∧
      h' = (h.setPmm pmm).setMem mem

/-- The heap from `slab_init` on; the direct map ends below the `vmalloc` area. -/
def heapSystem (Cpu : Type) [DecidableEq Cpu] : System (HeapSys Cpu) (HeapLabel Cpu) where
  init := fun h => (slabSystem Cpu).init h.sys ∧ h.larges = [] ∧
    h.sys.st.pmm.hhdmOffset + h.sys.st.pmm.memEnd ≤ vmallocBase
  step := HeapStep

end System

end Cervus.Slab
