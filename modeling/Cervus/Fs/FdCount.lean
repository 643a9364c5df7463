import Cervus.Fs.FdTable
import Mathlib.Algebra.Group.Action.Defs

/-! # Reference counts of open files

    Every reference to an open file is in an entry of some table, held by a caller, or
    detached and about to be dropped. The count in the file is the number of these
    references, and the vnode goes when it becomes 0 (`open_file_count`). The count is a
    32-bit word, so this is about runs in which no file comes to have `2 ^ 31` references.

    The slot counts as free before `vfs_file_free` has dropped the vnode. If it is given to
    a new file in between, the vnode of the new file is dropped (`reused_slot_loses_vnode`),
    so this is also about runs in which that does not happen. -/

namespace Cervus.Fd

open List

/-! ## Section 1: References -/

/-- What an entry, a table and all tables have of a file. -/
def inEntry (f : FileId) (e : Entry) : Nat := if e.file = some f then 1 else 0

@[inherit_doc inEntry]
def inTable (f : FileId) : Option Table → Nat
  | none => 0
  | some table => tally (inEntry f) table.entries

@[inherit_doc inEntry]
def descriptors (s : FdState) (f : FileId) : Nat := tally (inTable f) s.tables

/-- All references to a file. -/
def references (s : FdState) (f : FileId) : Nat :=
  descriptors s f + s.held.count f + s.detached.count f

/-- The vnodes of a slot that are not dropped: there is one as long as there are
    references, and then until `vfs_file_free` has dropped it. -/
def alive (s : FdState) (f : FileId) : Nat :=
  (if 0 < references s f then 1 else 0) + s.dropping.count f

/-- The number of references is the count in the file, a file has a vnode exactly when one
    is not dropped, and each vnode it was given has been dropped once, unless it is still
    there. -/
structure Counted (s : FdState) : Prop where
  count : ∀ f, (s.files f).refcount = BitVec.ofNat 32 (references s f)
  fits  : ∀ f, references s f < 2 ^ 32
  one   : ∀ f, alive s f ≤ 1
  vnode : ∀ f, (s.files f).vnode.isSome = true ↔ 0 < alive s f
  once  : ∀ f, s.opened f = s.dropped f + alive s f

/-- The condition on runs: no count comes near the end of its word, and no slot is taken
    while its vnode is to be dropped. -/
def Settled (s : FdState) : Call → Prop
  | .openFile f _ => (∀ g, references s g < 2 ^ 31) ∧ f ∉ s.dropping
  | _ => ∀ g, references s g < 2 ^ 31

@[simp] theorem inEntry_empty (f : FileId) : inEntry f .empty = 0 := rfl

theorem inEntry_file (f g : FileId) (flags : BitVec 32) :
    inEntry f ⟨some g, flags⟩ = if f = g then 1 else 0 := by
  unfold inEntry
  by_cases h : f = g
  · simp [h]
  · simp [h, Ne.symm h]

theorem count_filesOf (f : FileId) (entries : List Entry) :
    (filesOf entries).count f = tally (inEntry f) entries := by
  induction entries with
  | nil => rfl
  | cons e entries ih =>
    unfold filesOf at ih ⊢
    cases he : e.file with
    | none => simp [inEntry, he, ih]
    | some g =>
      rw [filterMap_cons_some he, tally_cons, count_cons, ih]
      by_cases hg : g = f
      · simp [inEntry, he, hg]
        omega
      · simp [inEntry, he, hg]

variable {s s' : FdState} {t : TableId} {table : Table} {fd i : Nat} {f : FileId}

theorem table_eq_some (h : s.table t = some table) : s.tables[t]? = some (some table) := by
  unfold FdState.table at h
  cases hget : s.tables[t]? with
  | none =>
    rw [hget] at h
    cases h
  | some entry =>
    rw [hget] at h
    cases h
    rfl

/-- Another table at the same address. -/
theorem descriptors_setTable (h : s.table t = some table) (new : Option Table) (f : FileId) :
    descriptors (s.setTable t new) f + inTable f (some table) = descriptors s f + inTable f new :=
  tally_set (table_eq_some h) new

theorem fileAt_eq_some (h : table.fileAt fd = some f) :
    ∃ e, table.entries[fd]? = some e ∧ e.file = some f := by
  obtain ⟨e, he, hf⟩ := Option.bind_eq_some_iff.mp h
  exact ⟨e, he, hf⟩

/-- Another entry in the table. -/
theorem descriptors_setEntry {old : Entry} (h : s.table t = some table)
    (hold : table.entries[fd]? = some old) (new : Entry) (f : FileId) :
    descriptors (s.setTable t (some (table.set fd new))) f + inEntry f old =
      descriptors s f + inEntry f new := by
  have htable := descriptors_setTable h (some (table.set fd new)) f
  have hentry : inTable f (some (table.set fd new)) + inEntry f old =
      inTable f (some table) + inEntry f new := tally_set hold new
  omega

theorem count_erase_add {l : List FileId} (h : f ∈ l) (g : FileId) :
    (l.erase f).count g + (if g = f then 1 else 0) = l.count g := by
  have hpos := count_pos_iff.mpr h
  rw [count_erase]
  by_cases hg : g = f
  · simp [hg]
    omega
  · simp [hg, Ne.symm hg]

theorem count_cons_file (f g : FileId) (l : List FileId) :
    (f :: l).count g = l.count g + if g = f then 1 else 0 := by
  by_cases hg : g = f
  · simp [hg]
  · simp [hg, Ne.symm hg]

/-! ## Section 2: Ways to change references -/

/-- References are moved. -/
theorem Counted.moved (h : Counted s) (hrefs : ∀ f, references s' f = references s f)
    (hsame : (s'.files, s'.dropping, s'.opened, s'.dropped) =
      (s.files, s.dropping, s.opened, s.dropped)) : Counted s' := by
  simp only [Prod.mk.injEq] at hsame
  obtain ⟨hfiles, hdropping, hopened, hdropped⟩ := hsame
  have halive : ∀ f, alive s' f = alive s f := by
    intro f
    rw [alive, hrefs, hdropping]
    rfl
  refine ⟨?_, ?_, ?_, ?_, ?_⟩
  · intro f
    rw [hfiles, hrefs, h.count]
  · intro f
    rw [hrefs]
    exact h.fits f
  · intro f
    rw [halive]
    exact h.one f
  · intro f
    rw [hfiles, halive]
    exact h.vnode f
  · intro f
    rw [hopened, hdropped, halive]
    exact h.once f

/-- References are added to files that have some. -/
theorem Counted.added (h : Counted s) (k : FileId → Nat)
    (hrefs : ∀ f, references s' f = references s f + k f)
    (hcount : ∀ f, (s'.files f).refcount = (s.files f).refcount + BitVec.ofNat 32 (k f))
    (hvnode : ∀ f, (s'.files f).vnode = (s.files f).vnode)
    (hsome : ∀ f, 0 < k f → 0 < references s f) (hfits : ∀ f, references s' f < 2 ^ 32)
    (hsame : (s'.dropping, s'.opened, s'.dropped) = (s.dropping, s.opened, s.dropped)) :
    Counted s' := by
  simp only [Prod.mk.injEq] at hsame
  obtain ⟨hdropping, hopened, hdropped⟩ := hsame
  have halive : ∀ f, alive s' f = alive s f := by
    intro f
    have hpos : 0 < references s' f ↔ 0 < references s f := by
      have := hrefs f
      have := hsome f
      omega
    simp only [alive, hdropping, hpos]
  refine ⟨?_, hfits, ?_, ?_, ?_⟩
  · intro f
    rw [hcount, h.count, hrefs, BitVec.ofNat_add]
  · intro f
    rw [halive]
    exact h.one f
  · intro f
    rw [hvnode, halive]
    exact h.vnode f
  · intro f
    rw [hopened, hdropped, halive]
    exact h.once f

theorem addRef_refcount (files : FileId → OpenFile) (f g : FileId) : (addRef files f g).refcount =
      (files g).refcount + BitVec.ofNat 32 (if g = f then 1 else 0) := by
  unfold addRef
  by_cases hg : g = f
  · simp [hg]
  · simp [hg]

theorem addRef_vnode (files : FileId → OpenFile) (f g : FileId) :
    (addRef files f g).vnode = (files g).vnode := by
  unfold addRef
  by_cases hg : g = f
  · simp [hg]
  · simp [hg]

/-- A reference is added to a file that has one. -/
theorem Counted.added_one (h : Counted s)
    (hrefs : ∀ g, references s' g = references s g + if g = f then 1 else 0)
    (hfiles : s'.files = addRef s.files f) (hpos : 0 < references s f)
    (hfits : ∀ g, references s g < 2 ^ 31)
    (hsame : (s'.dropping, s'.opened, s'.dropped) = (s.dropping, s.opened, s.dropped)) :
    Counted s' := by
  refine h.added (fun g => if g = f then 1 else 0) hrefs ?_ ?_ ?_ ?_ hsame
  · exact fun g => by rw [hfiles, addRef_refcount]
  · exact fun g => by rw [hfiles, addRef_vnode]
  · intro g hg
    by_cases hgf : g = f
    · rw [hgf]
      exact hpos
    · simp [hgf] at hg
  intro g
  have := hfits g
  rw [hrefs]
  split <;> omega

/-- One file changes. -/
theorem Counted.file_changed (h : Counted s)
    (hother : ∀ g, g ≠ f → references s' g = references s g ∧ s'.files g = s.files g ∧
      s'.dropping.count g = s.dropping.count g ∧ s'.opened g = s.opened g ∧
      s'.dropped g = s.dropped g)
    (hcount : (s'.files f).refcount = BitVec.ofNat 32 (references s' f))
    (hfits : references s' f < 2 ^ 32) (hone : alive s' f ≤ 1)
    (hvnode : (s'.files f).vnode.isSome = true ↔ 0 < alive s' f)
    (honce : s'.opened f = s'.dropped f + alive s' f) : Counted s' := by
  have hfile : ∀ g, (s'.files g).refcount = BitVec.ofNat 32 (references s' g) ∧
      references s' g < 2 ^ 32 ∧ alive s' g ≤ 1 ∧
      ((s'.files g).vnode.isSome = true ↔ 0 < alive s' g) ∧
      s'.opened g = s'.dropped g + alive s' g := by
    intro g
    by_cases hg : g = f
    · rw [hg]
      exact ⟨hcount, hfits, hone, hvnode, honce⟩
    · obtain ⟨hrefs, hfiles, hdropping, hopened, hdropped⟩ := hother g hg
      have halive : alive s' g = alive s g := by simp only [alive, hrefs, hdropping]
      rw [halive, hrefs, hfiles, hopened, hdropped]
      exact ⟨h.count g, h.fits g, h.one g, h.vnode g, h.once g⟩
  exact ⟨fun g => (hfile g).1, fun g => (hfile g).2.1, fun g => (hfile g).2.2.1,
    fun g => (hfile g).2.2.2.1, fun g => (hfile g).2.2.2.2⟩

/-- A free slot is taken, whose vnode is dropped. -/
theorem Counted.opened_file (h : Counted s) (hfree : (s.files f).refcount = 0#32)
    (hdropped : f ∉ s.dropping) (v : VnodeId) : Counted (openFile s f v) := by
  have hzero : references s f = 0 := by
    have hcount := congrArg BitVec.toNat ((h.count f).symm.trans hfree)
    rw [BitVec.toNat_ofNat, Nat.mod_eq_of_lt (h.fits f)] at hcount
    exact hcount
  have hnone : s.dropping.count f = 0 := count_eq_zero_of_not_mem hdropped
  have hrefs : ∀ g, references (openFile s f v) g = references s g + if g = f then 1 else 0 := by
    intro g
    show descriptors s g + (f :: s.held).count g + s.detached.count g = _
    unfold references
    rw [count_cons_file]
    omega
  have hself : references (openFile s f v) f = 1 := by rw [hrefs, hzero, if_pos rfl]
  have halive : alive (openFile s f v) f = 1 := by
    rw [alive, hself]
    show 1 + s.dropping.count f = 1
    omega
  have honce := h.once f
  rw [alive, hzero, hnone] at honce
  refine h.file_changed (f := f) ?_ ?_ ?_ ?_ ?_ ?_
  · intro g hg
    refine ⟨by rw [hrefs, if_neg hg, Nat.add_zero], ?_⟩
    simp [openFile, hg]
  · rw [hself]
    simp [openFile]
  · simp [hself]
  · exact Nat.le_of_eq halive
  · rw [halive]
    simp [openFile]
  · rw [halive]
    simp [openFile, honce]

/-- **`vfs_file_free`** of a reference that has been taken out of its place: the last one
    leaves the vnode to be dropped. -/
theorem Counted.freed {s1 : FdState} (h : Counted s)
    (hrefs : ∀ g, references s1 g + (if g = f then 1 else 0) = references s g)
    (hsame : (s1.files, s1.dropping, s1.opened, s1.dropped) =
      (s.files, s.dropping, s.opened, s.dropped)) : Counted (vfsFileFree s1 f) := by
  simp only [Prod.mk.injEq] at hsame
  obtain ⟨hfiles, hdropping, hopened, hdropped⟩ := hsame
  have hself : references s1 f + 1 = references s f := by simpa using hrefs f
  have hcount : (s1.files f).refcount = BitVec.ofNat 32 (references s1 f + 1) := by
    rw [hfiles, h.count, hself]
  have hfits := h.fits f
  -- the count is 1 exactly for the last reference
  have hlast : (s1.files f).refcount = 1#32 ↔ references s1 f = 0 := by
    rw [hcount]
    constructor
    · intro hone
      have := congrArg BitVec.toNat hone
      rw [BitVec.toNat_ofNat, Nat.mod_eq_of_lt (by omega)] at this
      simpa using this
    · intro hzero
      rw [hzero]
  -- then it is the vnode to be dropped, and else nothing changes
  have halive : alive (vfsFileFree s1 f) f = alive s f := by
    have hpos : 0 < references s f := by omega
    show (if 0 < references s1 f then 1 else 0) +
      (if (s1.files f).refcount = 1#32 then f :: s1.dropping else s1.dropping).count f = _
    rw [alive, if_pos hpos, hdropping]
    by_cases hone : (s1.files f).refcount = 1#32
    · rw [if_pos hone, hlast.mp hone, if_neg (Nat.lt_irrefl 0), count_cons_self]
      omega
    · rw [if_neg hone, if_pos (Nat.pos_of_ne_zero (mt hlast.mpr hone))]
  refine h.file_changed (f := f) ?_ ?_ ?_ ?_ ?_ ?_
  · intro g hg
    have hsame : references s1 g = references s g := by simpa [hg] using hrefs g
    refine ⟨hsame, ?_, ?_, congrFun hopened g, congrFun hdropped g⟩
    · simp [vfsFileFree, hg, hfiles]
    · show (if (s1.files f).refcount = 1#32 then f :: s1.dropping else s1.dropping).count g = _
      rw [hdropping]
      split
      · exact count_cons_of_ne hg.symm
      · rfl
  · show (Function.update s1.files f _ f).refcount = BitVec.ofNat 32 (references s1 f)
    rw [Function.update_self, hcount, BitVec.ofNat_add]
    exact BitVec.add_sub_cancel _ _
  · show references s1 f < 2 ^ 32
    omega
  · rw [halive]
    exact h.one f
  · rw [halive, ← h.vnode]
    simp [vfsFileFree, hfiles]
  · rw [halive, show (vfsFileFree s1 f).opened f = s.opened f from congrFun hopened f,
      show (vfsFileFree s1 f).dropped f = s.dropped f from congrFun hdropped f]
    exact h.once f

/-- The rest of `vfs_file_free`. -/
theorem Counted.unref (h : Counted s) (hf : f ∈ s.dropping) : Counted (vnodeUnref s f) := by
  have hmem := count_pos_iff.mpr hf
  have hone := h.one f
  have halive : alive s f = 1 := by
    unfold alive at hone ⊢
    omega
  have hgone : alive (vnodeUnref s f) f = 0 := by
    show (if 0 < references s f then 1 else 0) + (s.dropping.erase f).count f = 0
    unfold alive at halive
    rw [count_erase_self]
    omega
  have hvnode : (s.files f).vnode.isSome = true := (h.vnode f).mpr (by omega)
  refine h.file_changed (f := f) ?_ ?_ (h.fits f) ?_ ?_ ?_
  · intro g hg
    refine ⟨rfl, ?_, count_erase_of_ne hg, rfl, ?_⟩
    · simp [vnodeUnref, hg]
    · simp [vnodeUnref, hg]
  · show (Function.update s.files f _ f).refcount = _
    rw [Function.update_self]
    exact h.count f
  · omega
  · rw [hgone]
    simp [vnodeUnref]
  · have honce := h.once f
    rw [hgone]
    simpa [vnodeUnref, hvnode, halive] using honce

/-! ## Section 3: Calls -/

/-- The increments of `fd_table_clone`. -/
theorem foldl_addRef (fs : List FileId) (files : FileId → OpenFile) (g : FileId) :
    (fs.foldl addRef files g).refcount = (files g).refcount + BitVec.ofNat 32 (fs.count g) ∧
      (fs.foldl addRef files g).vnode = (files g).vnode := by
  induction fs generalizing files with
  | nil => simp
  | cons f fs ih =>
    obtain ⟨hcount, hvnode⟩ := ih (addRef files f)
    rw [foldl_cons, hcount, hvnode, addRef_refcount, addRef_vnode, count_cons_file]
    refine ⟨?_, rfl⟩
    rw [BitVec.add_assoc, ← BitVec.ofNat_add, Nat.add_comm]

/-- A file that an entry refers to has a reference. -/
theorem references_pos (ht : s.table t = some table) (hf : table.fileAt fd = some f) :
    0 < references s f := by
  obtain ⟨e, he, hfile⟩ := fileAt_eq_some hf
  have hentry : inEntry f e ≤ inTable f (some table) :=
    le_sum_of_mem (mem_map_of_mem (mem_of_getElem? he))
  have htable : inTable f (some table) ≤ descriptors s f :=
    le_sum_of_mem (mem_map_of_mem (mem_of_getElem? (table_eq_some ht)))
  have hone : inEntry f e = 1 := by simp [inEntry, hfile]
  unfold references
  omega

theorem fdPut_counted (h : Counted s) (hf : f ∈ s.held) : Counted (fdPut s f) := by
  refine h.freed ?_ rfl
  intro g
  have := count_erase_add hf g
  show descriptors s g + (s.held.erase f).count g + s.detached.count g + _ = _
  unfold references
  omega

theorem releaseDetached_counted (h : Counted s) (hf : f ∈ s.detached) :
    Counted (releaseDetached s f) := by
  refine h.freed ?_ rfl
  intro g
  have := count_erase_add hf g
  show descriptors s g + s.held.count g + (s.detached.erase f).count g + _ = _
  unfold references
  omega

theorem findFree_some {entries : List Entry} {min : Nat} (h : findFree entries min = some i) :
    ∃ e, entries[i]? = some e ∧ e.file = none := by
  have hfound := find?_some h
  simp only [Bool.and_eq_true, decide_eq_true_eq] at hfound
  obtain ⟨e, he, hfile⟩ := Option.map_eq_some_iff.mp hfound.2
  exact ⟨e, he, hfile⟩

/-- **`fd_alloc`** moves the reference of its caller. -/
theorem fdAlloc_counted (h : Counted s) (hf : f ∈ s.held) (minFd : Int) :
    Counted (fdAlloc s t f minFd).2 := by
  unfold fdAlloc
  cases ht : s.table t with
  | none => exact h
  | some table =>
    cases fdIndex minFd with
    | none => exact h
    | some min =>
      simp only
      cases hfree : findFree table.entries min with
      | none => exact h
      | some fd =>
        obtain ⟨e, he, hnone⟩ := findFree_some hfree
        refine h.moved ?_ rfl
        intro g
        have hset := descriptors_setEntry ht he ⟨some f, 0#32⟩ g
        have herase := count_erase_add hf g
        rw [inEntry_file] at hset
        have hold : inEntry g e = 0 := by simp [inEntry, hnone]
        show descriptors (s.setTable t (some (table.set fd ⟨some f, 0#32⟩))) g +
          (s.held.erase f).count g + s.detached.count g = _
        unfold references
        omega

/-- **`fd_get`** -/
theorem fdGet_counted (h : Counted s) (hfits : ∀ f, references s f < 2 ^ 31) (fd : Int) :
    Counted (fdGet s t fd).2 := by
  unfold fdGet
  cases ht : s.table t with
  | none => exact h
  | some table =>
    simp only
    cases hf : (fdIndex fd).bind table.fileAt with
    | none => exact h
    | some f =>
      obtain ⟨i, _, hat⟩ := Option.bind_eq_some_iff.mp hf
      refine h.added_one ?_ rfl (references_pos ht hat) hfits rfl
      intro g
      show descriptors s g + (f :: s.held).count g + s.detached.count g = _
      unfold references
      rw [count_cons_file]
      omega

/-- **`fd_close`** takes the reference out of the table. -/
theorem fdClose_counted (h : Counted s) (fd : Int) : Counted (fdClose s t fd).2 := by
  unfold fdClose
  cases ht : s.table t with
  | none => exact h
  | some table =>
    cases fdIndex fd with
    | none => exact h
    | some i =>
      simp only
      cases hat : table.fileAt i with
      | none => exact h
      | some f =>
        obtain ⟨e, he, hfile⟩ := fileAt_eq_some hat
        refine h.moved ?_ rfl
        intro g
        have hset := descriptors_setEntry ht he .empty g
        have hold : inEntry g e = if g = f then 1 else 0 := by
          rw [← inEntry_file g f e.fdFlags, ← hfile]
        rw [hold, inEntry_empty] at hset
        show descriptors (s.setTable t (some (table.set i .empty))) g + s.held.count g +
          (f :: s.detached).count g = _
        unfold references
        rw [count_cons_file]
        omega

/-- An entry that is replaced in a table of fixed size. -/
theorem entry_at {fd : Int} (h : fdIndex fd = some i) : ∃ e, table.entries[i]? = some e := by
  unfold fdIndex at h
  split at h
  · cases h
  cases h
  have hlt : fd.toNat < table.entries.length := by
    rw [table.size]
    omega
  exact ⟨_, List.getElem?_eq_getElem hlt⟩

theorem count_fileAt {e : Entry} (h : table.entries[i]? = some e) (g : FileId) :
    (table.fileAt i).toList.count g = inEntry g e := by
  unfold Table.fileAt inEntry
  rw [h, Option.bind_some]
  cases e.file with
  | none => simp
  | some f =>
    by_cases hg : f = g
    · simp [hg]
    · simp [hg]

section

variable (h : Counted s)
include h

/-- **`fd_dup2`** adds a reference to the source, and takes out the one that is replaced;
    both may be to the same file. -/
theorem fdDup2_counted (hfits : ∀ f, references s f < 2 ^ 31) (oldfd newfd : Int) :
    Counted (fdDup2 s t oldfd newfd).2 := by
  unfold fdDup2
  split
  · rename_i table i j ht hi hj
    split
    · exact h
    cases hat : table.fileAt i with
    | none => exact h
    | some src =>
      obtain ⟨e, he⟩ := @entry_at table j newfd hj
      refine h.added_one ?_ rfl (references_pos ht hat) hfits rfl
      intro g
      have hset := descriptors_setEntry ht he ⟨some src, 0#32⟩ g
      rw [inEntry_file] at hset
      show descriptors (s.setTable t (some (table.set j ⟨some src, 0#32⟩))) g +
        s.held.count g + ((table.fileAt j).toList ++ s.detached).count g = _
      rw [count_append, count_fileAt he]
      unfold references
      omega
  · exact h

theorem fdSetFlags_counted (fd : Int) (flags : BitVec 32) :
    Counted (fdSetFlags s t fd flags).2 := by
  unfold fdSetFlags
  cases ht : s.table t with
  | none => exact h
  | some table =>
    cases fdIndex fd with
    | none => exact h
    | some i =>
      simp only
      cases hat : table.fileAt i with
      | none => exact h
      | some f =>
        obtain ⟨e, he, hfile⟩ := fileAt_eq_some hat
        refine h.moved ?_ rfl
        intro g
        have hset := descriptors_setEntry ht he ⟨some f, flags⟩ g
        have hsame : inEntry g ⟨some f, flags⟩ = inEntry g e := by simp [inEntry, hfile]
        show descriptors (s.setTable t (some (table.set i ⟨some f, flags⟩))) g + s.held.count g +
          s.detached.count g = _
        unfold references
        omega

/-! ## Section 4: Tables -/

theorem fdTableCreate_counted : Counted (fdTableCreate s) := by
  refine h.moved ?_ rfl
  intro g
  have hnone : inTable g (some ⟨replicate maxFds .empty, 1, length_replicate⟩) = 0 := by
    show ((replicate maxFds Entry.empty).map (inEntry g)).sum = 0
    rw [map_replicate, inEntry_empty, sum_replicate_nat, Nat.mul_zero]
  show tally (inTable g) (s.tables ++ _) + s.held.count g + s.detached.count g = _
  rw [tally_append, tally_cons, tally_nil, hnone]
  rfl

/-- **`fd_table_clone`** adds a reference for each entry. -/
theorem fdTableClone_counted (hfits : ∀ f, references s f < 2 ^ 31) :
    Counted (fdTableClone s t) := by
  unfold fdTableClone
  cases ht : s.table t with
  | none => exact h
  | some table =>
    have hcopy : ∀ g, tally (inEntry g) (table.entries.map fun e =>
        if e.file.isSome then e else .empty) = inTable g (some table) := by
      intro g
      rw [tally_map]
      congr 1
      funext e
      cases he : e.file with
      | none => simp [inEntry, he, Entry.empty]
      | some f => simp
    have hle : ∀ g, inTable g (some table) ≤ references s g := by
      intro g
      have : inTable g (some table) ≤ descriptors s g :=
        le_sum_of_mem (mem_map_of_mem (mem_of_getElem? (table_eq_some ht)))
      unfold references
      omega
    have hrefs : ∀ g, tally (inTable g) (s.tables ++ [some { table.map (fun e =>
        if e.file.isSome then e else .empty) with refs := 1 }]) + s.held.count g +
        s.detached.count g = references s g + inTable g (some table) := by
      intro g
      rw [tally_append, tally_cons, tally_nil]
      have hnew := hcopy g
      show tally (inTable g) s.tables + (tally (inEntry g) (table.entries.map _) + 0) + _ + _ = _
      unfold references descriptors
      omega
    refine h.added (fun g => inTable g (some table)) hrefs ?_ ?_ ?_ ?_ rfl
    · intro g
      rw [(foldl_addRef _ _ g).1, count_filesOf]
      rfl
    · intro g
      exact (foldl_addRef _ _ g).2
    · intro g hg
      have := hle g
      omega
    intro g
    have := hfits g
    have := hle g
    have heq := hrefs g
    show tally (inTable g) (s.tables ++ _) + s.held.count g + s.detached.count g < _
    rw [heq]
    omega

/-- The count of tasks of a table. -/
theorem setRefs_counted (ht : s.table t = some table) (refs : Nat) :
    Counted (s.setTable t (some { table with refs := refs })) := by
  refine h.moved ?_ rfl
  intro g
  have hset := descriptors_setTable ht (some { table with refs := refs }) g
  have hsame : inTable g (some { table with refs := refs }) = inTable g (some table) := rfl
  show descriptors (s.setTable t _) g + s.held.count g + s.detached.count g = _
  unfold references
  omega

/-- **`fd_table_cloexec`** takes out the references of flagged entries. -/
theorem fdTableCloexec_counted : Counted (fdTableCloexec s t) := by
  unfold fdTableCloexec
  cases ht : s.table t with
  | none => exact h
  | some table =>
    refine h.moved ?_ rfl
    intro g
    have hset := descriptors_setTable ht
      (some (table.map fun e => if e.isCloexec then .empty else e)) g
    -- each entry is kept or taken out
    have hsplit : inTable g (some (table.map fun e => if e.isCloexec then .empty else e)) +
        (filesOf (table.entries.filter Entry.isCloexec)).count g = inTable g (some table) := by
      rw [count_filesOf, tally_filter]
      show tally (inEntry g) (table.entries.map _) + _ = tally (inEntry g) table.entries
      rw [tally_map]
      apply tally_add
      intro e _
      cases e.isCloexec with
      | true => simp
      | false => simp
    show descriptors (s.setTable t _) g + s.held.count g + (_ ++ s.detached).count g = _
    rw [count_append]
    unfold references
    omega

/-- **`fd_table_destroy`** takes out all of them. -/
theorem fdTableClear_counted : Counted (fdTableClear s t) := by
  unfold fdTableClear
  cases ht : s.table t with
  | none => exact h
  | some table =>
    refine h.moved ?_ rfl
    intro g
    have hset := descriptors_setTable ht none g
    have hall : (filesOf table.entries).count g = inTable g (some table) := count_filesOf g _
    have hnone : inTable g none = 0 := rfl
    show descriptors (s.setTable t none) g + s.held.count g +
      (filesOf table.entries ++ s.detached).count g = _
    rw [count_append]
    unfold references
    omega

/-! ## Section 5: Runs -/

/-- One step. -/
theorem Counted.perform {c : Call} (hfits : Settled s c) (he : Enabled s c) :
    Counted (perform s c) := by
  cases c with
  | openFile f v => exact h.opened_file he hfits.2 v
  | put f => exact fdPut_counted h he
  | release f => exact releaseDetached_counted h he
  | unref f => exact h.unref he
  | alloc t f minFd => exact fdAlloc_counted h he minFd
  | get t fd => exact fdGet_counted h hfits fd
  | close t fd => exact fdClose_counted h fd
  | dup2 t oldfd newfd => exact fdDup2_counted h hfits oldfd newfd
  | setFlags t fd flags => exact fdSetFlags_counted h fd flags
  | create => exact fdTableCreate_counted h
  | clone t => exact fdTableClone_counted h hfits
  | share t =>
    show Counted (fdTableRef s t)
    unfold fdTableRef
    cases ht : s.table t with
    | none => exact h
    | some table => exact setRefs_counted h ht _
  | cloexec t => exact fdTableCloexec_counted h
  | drop t =>
    show Counted (fdTableDrop s t)
    unfold fdTableDrop
    cases ht : s.table t with
    | none => exact h
    | some table => exact setRefs_counted h ht _
  | clear t => exact fdTableClear_counted h

end

instance (c : Call) : Decidable (Enabled s c) := by
  cases c <;> unfold Enabled <;> infer_instance

/-- A step that can be taken; in few places no count comes near the end of its word. -/
def attempt (s : FdState) (c : Call) : Option FdState :=
  if Enabled s c then some (perform s c) else none

theorem attempt_step {c : Call} (h : attempt s c = some s') : fdSystem.step s c s' := by
  obtain ⟨he, hs⟩ := Option.ite_none_right_eq_some.mp h
  exact ⟨he, (Option.some.inj hs).symm⟩

end Cervus.Fd
