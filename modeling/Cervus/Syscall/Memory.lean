import Cervus.Memory.Pages

/-! # System calls on user memory

    The model of `munmap.c`, `mmap.c` and `brk.c` in `syscall/mem`. A call is made by the
    current task and works on its pagemap; `none` is a call that never returns. -/

namespace Cervus.Vmm

open Cervus.Pmm

def einval : Int := 22

def enomem : Int := 12

/-- The fields of `task_t` that the memory calls use; the pagemap is its top table. -/
structure Task where
  isUserspace : Bool
  pagemap     : Nat
  brkStart    : BitVec 64
  brkCurrent  : BitVec 64
  brkMax      : BitVec 64

/-! ## Section 1: `sys_munmap` -/

/-- The number of pages of a length, `(length + 0xFFF) >> 12`. -/
def pageCount (length : BitVec 64) : Nat := ((length + 0xFFF#64) >>> 12).toNat

/-- The addresses the loop of `sys_munmap` goes through. -/
def munmapPages (addr length : BitVec 64) : List (BitVec 64) :=
  (List.range (pageCount length)).map fun i => addr + BitVec.ofNat 64 i * 0x1000#64

/-- The arguments `sys_munmap` refuses. -/
def munmapRefuses (t : Task) (addr length : BitVec 64) : Bool :=
  !t.isUserspace || addr &&& 0xFFF#64 != 0#64 || length == 0#64

/-- `sys_munmap`, for the current task. -/
def sysMunmap (st : VmState) (cur : Option Task) (addr length : BitVec 64) :
    Option (Int × VmState) :=
  match cur with
  | none => some (-einval, st)
  | some t =>
    if munmapRefuses t addr length then some (-einval, st)
    else
      ((munmapPages addr length).foldlM (fun st v => vmmUnmapPage st t.pagemap v) st).map
        fun st => (0, st)

/-! ## Section 2: `sys_mmap` -/

/-- Where the pages of a mapping come from: the frame of page `i`, and the error when there
    is none. Pages of a `memfd` or a device are shared. -/
structure MapSource where
  page     : Nat → VmState → Option (Option Nat × VmState)
  error    : Int
  isShared : Bool

/-- New pages for an anonymous mapping. -/
def MapSource.anonymous : MapSource where
  page _ st := match allocPage st with
    | none => none
    | some (page, st) => some (if page = 0 then none else some page, st)
  error := enomem
  isShared := false

/-- The arguments of `sys_mmap` besides hint and length. `file` is what the descriptor
    leads to: a source, or the error of the first part of the call. -/
structure MapArgs where
  isAnonymous : Bool
  isFixed     : Bool
  write       : Bool
  exec        : Bool
  fd          : BitVec 64
  file        : Except Int MapSource

/-- The first part of `sys_mmap`: the source of the pages. -/
def MapArgs.source (args : MapArgs) : Except Int MapSource :=
  if !args.isAnonymous then args.file
  else if args.fd ≠ BitVec.allOnes 64 ∧ args.fd ≠ 0#64 then .error einval
  else .ok .anonymous

/-- The flags of the new entries. -/
def MapArgs.flags (args : MapArgs) (source : MapSource) : Pte :=
  let vf := vmmPresent ||| vmmUser
  let vf := if args.write then vf ||| vmmWrite else vf
  let vf := if !args.exec then vf ||| vmmNoexec else vf
  if source.isShared then vf ||| vmmShared else vf

/-- The pages of a range. -/
def rangePages (addr : BitVec 64) (pages : Nat) : List (BitVec 64) :=
  (List.range pages).map fun i => addr + BitVec.ofNat 64 i * 0x1000#64

/-- The pages that were mapped before a failure are unmapped. -/
def unmapRange (st : VmState) (root : Nat) (addr : BitVec 64) (pages : Nat) : Option VmState :=
  (rangePages addr pages).foldlM (fun st v => vmmUnmapPage st root v) st

/-- The loop of `sys_mmap`: page `i` is next, and `n` remain. The result is the error, if
    there is one. -/
def mapLoop (root : Nat) (addr : BitVec 64) (flags : Pte) (source : MapSource) :
    Nat → Nat → VmState → Option (Option Int × VmState)
  | 0, _, st => some (none, st)
  | n + 1, i, st => match source.page i st with
    | none => none
    | some (none, st) => (unmapRange st root addr i).map fun st => (some source.error, st)
    | some (some phys, st) =>
      match vmmMapPage st root (addr + BitVec.ofNat 64 i * 0x1000#64) (BitVec.ofNat 64 phys)
        flags with
      | none => none
      | some (true, st) => mapLoop root addr flags source n (i + 1) st
      | some (false, st) => (unmapRange st root addr i).map fun st => (some enomem, st)

/-- The address of a mapping: the hint, or the highest range below `brk_max` when there is
    none, which moves `brk_max` down. -/
def placeMapping (t : Task) (hint : BitVec 64) (isFixed : Bool) (pages : Nat) :
    Except Int (BitVec 64 × Task) :=
  if isFixed ∨ hint ≠ 0#64 then .ok (hint &&& ~~~0xFFF#64, t)
  else
    let span := BitVec.ofNat 64 pages * 0x1000#64
    if t.brkMax < span then .error enomem
    else
      let addr := (t.brkMax - span) &&& ~~~0xFFF#64
      if addr ≤ t.brkCurrent then .error enomem
      else .ok (addr, { t with brkMax := addr })

/-- `0x0000800000000000`, where user memory ends. -/
def userEnd : BitVec 64 := 0x0000800000000000#64

/-- The tests on the range of a mapping. -/
def checkRange (addr : BitVec 64) (pages : Nat) : Option Int :=
  let stop := addr + BitVec.ofNat 64 pages * 0x1000#64
  if addr < 0x1000#64 then some einval
  else if userEnd ≤ addr then some enomem
  else if stop < addr then some einval
  else if userEnd < stop then some enomem
  else none

/-- The tests on the length, and the number of pages. -/
def checkLength (length : BitVec 64) : Except Int Nat :=
  if length = 0#64 then .error einval
  else if 0x10000000000#64 < length then .error enomem
  else if length + 0xFFF#64 < length then .error einval
  else if pageCount length = 0 ∨ 0x10000000 < pageCount length then .error enomem
  else .ok (pageCount length)

/-- `sys_mmap` of a user task: the error or the address, and the task and memory after it.
    A call that fails on its way keeps the range it has taken from `brk_max`. -/
def sysMmap (st : VmState) (t : Task) (hint length : BitVec 64) (args : MapArgs) :
    Option (Except Int (BitVec 64) × Task × VmState) :=
  if !t.isUserspace then some (.error einval, t, st)
  else match args.source with
    | .error e => some (.error e, t, st)
    | .ok source => match checkLength length with
      | .error e => some (.error e, t, st)
      | .ok pages => match placeMapping t hint args.isFixed pages with
        | .error e => some (.error e, t, st)
        | .ok (addr, t) => match checkRange addr pages with
          | some e => some (.error e, t, st)
          | none => match mapLoop t.pagemap addr (args.flags source) source pages 0 st with
            | none => none
            | some (some e, st) => some (.error e, t, st)
            | some (none, st) => some (.ok addr, t, st)

/-! ## Section 3: `sys_brk` -/

/-- `(a + 0xFFF) & ~0xFFF` -/
def pageUp (a : BitVec 64) : BitVec 64 := (a + 0xFFF#64) &&& ~~~0xFFF#64

/-- The loop that grows the heap; whether all pages could be mapped. -/
def growHeap (root : Nat) : List (BitVec 64) → VmState → Option (Bool × VmState)
  | [], st => some (true, st)
  | p :: ps, st => match allocPage st with
    | none => none
    | some (page, st) =>
      if page = 0 then some (false, st)
      else match vmmMapPage st root p (BitVec.ofNat 64 page)
          (vmmPresent ||| vmmWrite ||| vmmUser ||| vmmNoexec) with
        | none => none
        | some (true, st) => growHeap root ps st
        | some (false, st) => (st.free page 1).map fun st => (false, st)

/-- `sys_brk` of a user task. Any break that cannot be set gives the current one back. -/
def sysBrk (st : VmState) (t : Task) (newBrk : BitVec 64) :
    Option (Except Int (BitVec 64) × Task × VmState) :=
  if !t.isUserspace then some (.error einval, t, st)
  else if newBrk = 0#64 then some (.ok t.brkCurrent, t, st)
  else if newBrk < t.brkStart ∨ t.brkMax < newBrk then some (.ok t.brkCurrent, t, st)
  else
    let oldPage := pageUp t.brkCurrent
    let newPage := pageUp newBrk
    if t.brkCurrent < newBrk then
      match growHeap t.pagemap (pagesUpTo oldPage newPage) st with
      | none => none
      | some (false, st) => some (.ok t.brkCurrent, t, st)
      | some (true, st) => some (.ok newBrk, { t with brkCurrent := newBrk }, st)
    else
      match (pagesUpTo newPage oldPage).foldlM (fun st v => vmmUnmapPage st t.pagemap v) st with
      | none => none
      | some st => some (.ok newBrk, { t with brkCurrent := newBrk }, st)

/-- The part of `task_spawn_thread` that concerns memory: the new task has the pagemap of
    its parent, and copies of the marks as they are now. -/
def spawnThread (parent : Task) : Task where
  isUserspace := parent.isUserspace
  pagemap := parent.pagemap
  brkStart := parent.brkStart
  brkCurrent := parent.brkCurrent
  brkMax := parent.brkMax

end Cervus.Vmm
