import Cervus.Framework.System
import Cervus.Framework.Tally

/-! # Descriptor tables

    The model of open files and descriptor tables in `fs/vfs.c`. Calls are cut where they
    take and release the lock of a table: `fd_close`, `fd_dup2`, `fd_table_cloexec` and
    `fd_table_destroy` take references out of a table in one step, and drop them by
    `vfs_file_free` in later ones. Between these steps the references are `detached`.
    `vfs_file_free` holds no lock: it takes the count down in one step, and in a later one,
    when the count became 0, drops the vnode. In between the slot counts as free.

    A reference outside of tables is `held`: by the caller of `fd_get`, or by the one that
    has opened the file and not yet passed it to `fd_alloc`. The opening of a file is one
    step here. -/

namespace Cervus.Fd

/-! ## Section 1: State -/

/-- A slot of `g_open_files`. -/
abbrev FileId := Nat

/-- The address of a `vnode_t`. -/
abbrev VnodeId := Nat

/-- The address of an `fd_table_t`. -/
abbrev TableId := Nat

/-- `TASK_MAX_FDS` -/
def maxFds : Nat := 256

/-- `EBADF`, `EINVAL` and `EMFILE` -/
def ebadf : Int := 9

@[inherit_doc ebadf] def einval : Int := 22

@[inherit_doc ebadf] def emfile : Int := 24

/-- The fields of `vfs_file_t` in use. The slot is free when the count is 0. -/
structure OpenFile where
  vnode    : Option VnodeId
  refcount : BitVec 32

/-- `fd_entry_t` -/
structure Entry where
  file    : Option FileId
  fdFlags : BitVec 32
  deriving DecidableEq

/-- An unused entry. -/
def Entry.empty : Entry := ⟨none, 0#32⟩

/-- `fd_table_t`; `refs` counts the tasks that share it. -/
structure Table where
  entries : List Entry
  refs    : Nat
  size    : entries.length = maxFds

/-- Open files, tables (by number, in the order of their creation; `none` has been freed),
    references outside of tables, and the files whose vnode a call of `vfs_file_free` that
    has made the count 0 is about to drop. The last two fields are not in the source: how often
    a slot has been given a vnode, and how often `vfs_file_free` has called `vnode_unref`
    on one. -/
structure FdState where
  files    : FileId → OpenFile
  tables   : List (Option Table)
  held     : List FileId
  detached : List FileId
  dropping : List FileId
  opened   : FileId → Nat
  dropped  : FileId → Nat

/-- Nothing is open. -/
def FdState.initial : FdState where
  files _ := ⟨none, 0#32⟩
  tables := []
  held := []
  detached := []
  dropping := []
  opened _ := 0
  dropped _ := 0

/-- The table at an address. -/
def FdState.table (s : FdState) (t : TableId) : Option Table := (s.tables[t]?).join

/-- A table has new contents. -/
def FdState.setTable (s : FdState) (t : TableId) (table : Option Table) : FdState :=
  { s with tables := s.tables.set t table }

/-- `entries[fd] = e` -/
def Table.set (table : Table) (fd : Nat) (e : Entry) : Table where
  entries := table.entries.set fd e
  refs := table.refs
  size := by rw [List.length_set, table.size]

/-- A loop over all entries. -/
def Table.map (table : Table) (f : Entry → Entry) : Table where
  entries := table.entries.map f
  refs := table.refs
  size := by rw [List.length_map, table.size]

/-! ## Section 2: Files -/

/-- `__atomic_fetch_add(&file->refcount, 1)` -/
def addRef (files : FileId → OpenFile) (f : FileId) : FileId → OpenFile :=
  Function.update files f { files f with refcount := (files f).refcount + 1 }

/-- `vfs_open`, as far as the slot is concerned: `vfs_file_alloc` has found it free, and
    the vnode is stored. -/
def openFile (s : FdState) (f : FileId) (v : VnodeId) : FdState :=
  { s with
    files := Function.update s.files f ⟨some v, 1#32⟩
    held := f :: s.held
    opened := Function.update s.opened f (s.opened f + 1) }

/-- `vfs_file_free`, the count. -/
def vfsFileFree (s : FdState) (f : FileId) : FdState :=
  let file := s.files f
  { s with
    files := Function.update s.files f { file with refcount := file.refcount - 1 }
    dropping := if file.refcount = 1#32 then f :: s.dropping else s.dropping }

/-- The rest of it, when the count became 0: the vnode that is in the slot by now. -/
def vnodeUnref (s : FdState) (f : FileId) : FdState :=
  let file := s.files f
  { s with
    files := Function.update s.files f { file with vnode := none }
    dropping := s.dropping.erase f
    dropped := Function.update s.dropped f (s.dropped f + if file.vnode.isSome then 1 else 0) }

/-- `fd_put`, of a reference that the caller holds. -/
def fdPut (s : FdState) (f : FileId) : FdState :=
  vfsFileFree { s with held := s.held.erase f } f

/-- The last part of `fd_close` and its kin. -/
def releaseDetached (s : FdState) (f : FileId) : FdState :=
  vfsFileFree { s with detached := s.detached.erase f } f

/-! ## Section 3: Descriptors -/

/-- A descriptor in range. -/
def fdIndex (fd : Int) : Option Nat :=
  if fd < 0 ∨ (maxFds : Int) ≤ fd then none else some fd.toNat

/-- The file of a descriptor. -/
def Table.fileAt (table : Table) (fd : Nat) : Option FileId := (table.entries[fd]?).bind Entry.file

/-- The loop of `fd_alloc`: the first unused entry from `i` on. -/
def findFree (entries : List Entry) (min : Nat) : Option Nat :=
  (List.range entries.length).find? fun i =>
    decide (min ≤ i) && decide ((entries[i]?).map Entry.file = some none)

/-- `fd_alloc`: the reference of the caller goes to the table. -/
def fdAlloc (s : FdState) (t : TableId) (f : FileId) (minFd : Int) : Int × FdState :=
  match s.table t with
  | none => (-einval, s)
  | some table => match fdIndex minFd with
    | none => (-einval, s)
    | some min => match findFree table.entries min with
      | none => (-emfile, s)
      | some fd =>
        ((fd : Int),
          { s.setTable t (some (table.set fd ⟨some f, 0#32⟩)) with held := s.held.erase f })

def fdGet (s : FdState) (t : TableId) (fd : Int) : Option FileId × FdState :=
  match s.table t with
  | none => (none, s)
  | some table => match (fdIndex fd).bind table.fileAt with
    | none => (none, s)
    | some f => (some f, { s with files := addRef s.files f, held := f :: s.held })

/-- `fd_close`, up to the release of the lock. -/
def fdClose (s : FdState) (t : TableId) (fd : Int) : Int × FdState :=
  match s.table t, fdIndex fd with
  | none, _ => (-ebadf, s)
  | some _, none => (-ebadf, s)
  | some table, some i => match table.fileAt i with
    | none => (-ebadf, s)
    | some f => (0, { s.setTable t (some (table.set i .empty)) with detached := f :: s.detached })

/-- `fd_dup2`, up to the release of the lock. -/
def fdDup2 (s : FdState) (t : TableId) (oldfd newfd : Int) : Int × FdState :=
  match s.table t, fdIndex oldfd, fdIndex newfd with
  | some table, some i, some j =>
    if oldfd = newfd then (newfd, s)
    else match table.fileAt i with
      | none => (-ebadf, s)
      | some src =>
        (newfd, { s.setTable t (some (table.set j ⟨some src, 0#32⟩)) with
          files := addRef s.files src
          detached := (table.fileAt j).toList ++ s.detached })
  | _, _, _ => (-ebadf, s)

def fdSetFlags (s : FdState) (t : TableId) (fd : Int) (flags : BitVec 32) : Int × FdState :=
  match s.table t, fdIndex fd with
  | none, _ => (-ebadf, s)
  | some _, none => (-ebadf, s)
  | some table, some i => match table.fileAt i with
    | none => (-ebadf, s)
    | some f => (0, s.setTable t (some (table.set i ⟨some f, flags⟩)))

/-! ## Section 4: Tables -/

def fdTableCreate (s : FdState) : FdState :=
  { s with tables := s.tables ++ [some ⟨List.replicate maxFds .empty, 1, List.length_replicate⟩] }

/-- The files of entries, in order. -/
def filesOf (entries : List Entry) : List FileId := entries.filterMap Entry.file

/-- `fd_table_clone`: unused entries of the copy are clear. -/
def fdTableClone (s : FdState) (t : TableId) : FdState :=
  match s.table t with
  | none => s
  | some table =>
    let copy := table.map fun e => if e.file.isSome then e else .empty
    { s with
      files := (filesOf table.entries).foldl addRef s.files
      tables := s.tables ++ [some { copy with refs := 1 }] }

def fdTableRef (s : FdState) (t : TableId) : FdState :=
  match s.table t with
  | none => s
  | some table => s.setTable t (some { table with refs := table.refs + 1 })

/-- `fd_flags & FD_CLOEXEC` -/
def Entry.isCloexec (e : Entry) : Bool := e.file.isSome && e.fdFlags &&& 1#32 != 0#32

/-- `fd_table_cloexec`, up to the release of the lock. -/
def fdTableCloexec (s : FdState) (t : TableId) : FdState :=
  match s.table t with
  | none => s
  | some table =>
    { s.setTable t (some (table.map fun e => if e.isCloexec then .empty else e)) with
      detached := filesOf (table.entries.filter Entry.isCloexec) ++ s.detached }

/-- `fd_table_destroy`, its first statement. -/
def fdTableDrop (s : FdState) (t : TableId) : FdState :=
  match s.table t with
  | none => s
  | some table => s.setTable t (some { table with refs := table.refs - 1 })

/-- The rest of it when no task uses the table any more, up to the release of the lock;
    nobody looks at the table after that. -/
def fdTableClear (s : FdState) (t : TableId) : FdState :=
  match s.table t with
  | none => s
  | some table => { s.setTable t none with detached := filesOf table.entries ++ s.detached }

/-! ## Section 5: Runs -/

/-- A step of some task. -/
inductive Call where
  | openFile (f : FileId) (v : VnodeId)
  | put (f : FileId)
  | release (f : FileId)
  | unref (f : FileId)
  | alloc (t : TableId) (f : FileId) (minFd : Int)
  | get (t : TableId) (fd : Int)
  | close (t : TableId) (fd : Int)
  | dup2 (t : TableId) (oldfd newfd : Int)
  | setFlags (t : TableId) (fd : Int) (flags : BitVec 32)
  | create
  | clone (t : TableId)
  | share (t : TableId)
  | cloexec (t : TableId)
  | drop (t : TableId)
  | clear (t : TableId)

/-- When a step can be taken: references are passed on or dropped by those that have them,
    a slot is free when its count is 0, and a table is cleared when no task has it. -/
def Enabled (s : FdState) : Call → Prop
  | .openFile f _ => (s.files f).refcount = 0#32
  | .put f => f ∈ s.held
  | .release f => f ∈ s.detached
  | .unref f => f ∈ s.dropping
  | .alloc _ f _ => f ∈ s.held
  | .drop t => ∀ table ∈ s.table t, 0 < table.refs
  | .clear t => ∀ table ∈ s.table t, table.refs = 0
  | _ => True

/-- The state after it. -/
def perform (s : FdState) : Call → FdState
  | .openFile f v => Fd.openFile s f v
  | .put f => fdPut s f
  | .release f => releaseDetached s f
  | .unref f => vnodeUnref s f
  | .alloc t f minFd => (fdAlloc s t f minFd).2
  | .get t fd => (fdGet s t fd).2
  | .close t fd => (fdClose s t fd).2
  | .dup2 t oldfd newfd => (fdDup2 s t oldfd newfd).2
  | .setFlags t fd flags => (fdSetFlags s t fd flags).2
  | .create => fdTableCreate s
  | .clone t => fdTableClone s t
  | .share t => fdTableRef s t
  | .cloexec t => fdTableCloexec s t
  | .drop t => fdTableDrop s t
  | .clear t => fdTableClear s t

/-- Any number of tasks with any number of tables. -/
def fdSystem : System FdState Call where
  init s := s = .initial
  step s c s' := Enabled s c ∧ s' = perform s c

end Cervus.Fd
