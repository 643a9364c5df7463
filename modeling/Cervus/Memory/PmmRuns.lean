import Cervus.Framework.System
import Cervus.Memory.PmmInvariant
import Mathlib.Order.Interval.Finset.Nat

/-! # Runs of the page allocator

    The allocator as a state machine: it starts in `pmm_init` on a boot memory
    map, and each step is one call of `pmm_alloc`, `pmm_alloc_zero`,
    `pmm_alloc_below` or `pmm_free`. The state carries the allocations that
    are still live, so that `pmm_free` can be restricted to them.

    `blocks_tile_memory` is the safety theorem: in every state of every run
    the free blocks and the live blocks are disjoint, aligned, above 1 MiB and
    inside usable memory, and together they are the frames that `pmm_init`
    released. A block can be larger than the entry it started in: coalescing
    looks at addresses only, so two entries that touch are merged
    (`merged_block_in_no_entry`). `alloc_below_exact` says when `pmm_alloc_below`
    finds a block. -/

namespace Cervus.Pmm

open Cervus.Frames PmmBlock Multiset

/-! ## Section 1: `pmm_init` -/

/-- The frames that lie wholly inside a usable entry and above 1 MiB. -/
def BootMmapEntry.frames (e : BootMmapEntry) : Multiset Nat :=
  if e.type = .usable then
    let lo := max ((e.base + pageSize - 1) / pageSize) (freeMinPhys / pageSize)
    span lo ((e.base + e.length) / pageSize - lo)
  else 0

variable {e e' : BootMmapEntry} {f : Nat} {s s' : PmmBuddyState} {g : BootMmapEntry → Multiset Nat}
  {bi : BootInfo} {st st' : PmmSys} {a : Alloc} {c : PmmCall}

theorem BootMmapEntry.mem_frames (h : f ∈ e.frames) :
    e.type = .usable ∧ freeMinPhys / pageSize ≤ f ∧ e.base ≤ f * pageSize ∧
      (f + 1) * pageSize ≤ e.base + e.length := by
  unfold BootMmapEntry.frames at h
  split at h
  · next hu =>
    simp only [mem_span, pageSize] at h ⊢
    refine ⟨hu, ?_, ?_, ?_⟩ <;> omega
  · simp at h

theorem carveOrder_spec {base rem : Nat} (hb : pageSize ∣ base) (hr : 0 < rem) :
    ∀ o, carveOrder base rem o ≤ o ∧ 2 ^ (pageShift + carveOrder base rem o) ∣ base ∧
      2 ^ carveOrder base rem o ≤ rem := by
  intro o
  induction o with
  | zero => exact ⟨le_rfl, hb, hr⟩
  | succ o ih =>
    simp only [carveOrder]
    split
    · next h =>
      obtain ⟨hmask, hfit⟩ := h
      rw [Nat.one_shiftLeft] at hmask hfit
      refine ⟨le_rfl, ?_, hfit⟩
      rw [two_pow_pageShift_add, Nat.mul_comm]
      have hpow : 2 ^ (o + 1) * pageSize = 2 ^ (o + 1 + 12) := by rw [Nat.pow_add _ _ 12]; rfl
      rw [hpow, Nat.and_two_pow_sub_one_eq_mod] at hmask
      rw [hpow]
      exact Nat.dvd_of_mod_eq_zero hmask
    · exact ⟨Nat.le_succ_of_le ih.1, ih.2⟩

/-- One round of the loop: the pages that are left, and the block that is cut off. -/
theorem carve_round {q r : Nat} (h : pageSize * q < pageSize * r) :
    let rem := (pageSize * r - pageSize * q) >>> pageShift
    let order := carveOrder (pageSize * q) rem maxOrder
    order ≤ maxOrder ∧ 2 ^ (pageShift + order) ∣ pageSize * q ∧ rem = r - q ∧
      q + 2 ^ order ≤ r := by
  have hrem : (pageSize * r - pageSize * q) >>> pageShift = r - q := by
    rw [← Nat.mul_sub, Nat.shiftRight_eq_div_pow]
    exact Nat.mul_div_cancel_left _ (by decide)
  have hlt := Nat.lt_of_mul_lt_mul_left h
  rw [hrem]
  obtain ⟨hmax, hdvd, hfit⟩ := carveOrder_spec (Nat.dvd_mul_right pageSize q)
    (by omega : 0 < r - q) maxOrder
  exact ⟨hmax, hdvd, rfl, by omega⟩

theorem carve_next (q order : Nat) :
    pageSize * q + pageSize <<< order = pageSize * (q + 2 ^ order) := by
  rw [Nat.shiftLeft_eq, Nat.mul_add]

/-- **Carving.** The greedy loop over a page-aligned range puts exactly the
    frames of the range on the free lists. -/
theorem carve_spec {stop : Nat} (hstop : pageSize ∣ stop) :
    ∀ (base : Nat) (s : PmmBuddyState), pageSize ∣ base → ListsOk s →
      ListsOk (carve base stop s) ∧ SameRegion s (carve base stop s) ∧
      freeFrames (carve base stop s) =
        freeFrames s + span (base / pageSize) (stop / pageSize - base / pageSize) := by
  intro base s
  induction base, s using carve.induct stop with
  | case1 base s hlt rem order s' ih =>
    intro hb hl
    obtain ⟨q, rfl⟩ := hb
    obtain ⟨r, rfl⟩ := hstop
    obtain ⟨hmax, hdvd, _, hfit⟩ := carve_round hlt
    have ha : Aligned ⟨pageSize * q, order⟩ := ⟨hmax, hdvd⟩
    have hnext := carve_next q order
    have hpush := flPush_lists hl ha
    obtain ⟨hl', hr', hf'⟩ := ih (by rw [hnext]; exact Nat.dvd_mul_right _ _) ⟨hpush.1, hpush.2⟩
    rw [carve, if_pos hlt]
    refine ⟨hl', ⟨hr'.1, hr'.2, hr'.3, hr'.4, hr'.5⟩, ?_⟩
    refine hf'.trans ?_
    have hs' : freeFrames { s' with freePages := u64 (s'.freePages + 1 <<< order) } =
        frames ⟨pageSize * q, order⟩ + freeFrames s := freeFrames_flPush hmax
    rw [hs', hnext]
    simp only [frames, Nat.mul_div_cancel_left _ pageSize_pos]
    have hsplit : r - q = 2 ^ order + (r - (q + 2 ^ order)) := by
      have : q + 2 ^ order ≤ r := hfit
      have := Nat.two_pow_pos order
      omega
    rw [hsplit, span_add]
    abel
  | case2 base s hge =>
    intro hb hl
    rw [carve, if_neg hge]
    refine ⟨hl, SameRegion.refl s, ?_⟩
    have : stop / pageSize - base / pageSize = 0 := by
      have := Nat.div_le_div_right (c := pageSize) (Nat.le_of_not_lt hge)
      omega
    rw [this]
    simp [span]

/-- `pmm_init` carves the range of the frames of a usable entry. -/
theorem initEntry_eq (hu : e.type = .usable) (hb : e.base + e.length ≤ 2 ^ 52) :
    ∃ lo hi, e.frames = span lo (hi - lo) ∧
      ∀ s, initEntry s e = carve (lo * pageSize) (hi * pageSize) s := by
  refine ⟨max ((e.base + pageSize - 1) / pageSize) (freeMinPhys / pageSize),
    (e.base + e.length) / pageSize, if_pos hu, ?_⟩
  intro s
  have hstop : u64 (e.base + e.length) = e.base + e.length := u64_of_lt (by omega)
  have hbase : alignUp e.base pageSize = (e.base + pageSize - 1) / pageSize * pageSize := by
    unfold alignUp
    rw [u64_of_lt ?_]
    simp only [pageSize]
    omega
  have hmin : freeMinPhys = freeMinPhys / pageSize * pageSize := by decide
  unfold initEntry
  rw [if_neg (not_not.mpr hu)]
  simp only [hstop, hbase]
  generalize (e.base + pageSize - 1) / pageSize = lo
  split
  · next hlow =>
    -- the entry begins below 1 MiB
    have hlow' : lo < freeMinPhys / pageSize := by
      exact Nat.lt_of_mul_lt_mul_right hlow
    rw [Nat.max_eq_right (Nat.le_of_lt hlow'), ← hmin]
    split
    · next hge => rw [carve, if_neg (Nat.not_lt.mpr hge)]
    · rfl
  next hhigh =>
  have hhigh' : freeMinPhys / pageSize ≤ lo := by
    rw [hmin, Nat.not_lt] at hhigh
    exact Nat.le_of_mul_le_mul_right hhigh pageSize_pos
  rw [Nat.max_eq_left hhigh']

theorem initEntry_of_not_usable (hu : e.type ≠ .usable) : initEntry s e = s := if_pos hu

theorem initEntry_spec (hl : ListsOk s) (hbound : e.type = .usable → e.base + e.length ≤ 2 ^ 52) :
    ListsOk (initEntry s e) ∧ SameRegion s (initEntry s e) ∧
      freeFrames (initEntry s e) = freeFrames s + e.frames := by
  by_cases hu : e.type = .usable
  · obtain ⟨lo, hi, hframes, hcarve⟩ := initEntry_eq hu (hbound hu)
    have hspec := carve_spec (Nat.dvd_mul_left pageSize hi) (lo * pageSize) s
      (Nat.dvd_mul_left _ _) hl
    rw [Nat.mul_div_cancel _ pageSize_pos, Nat.mul_div_cancel _ pageSize_pos] at hspec
    rw [hcarve, hframes]
    exact hspec
  · have hframes : e.frames = 0 := if_neg hu
    rw [initEntry_of_not_usable hu, hframes, add_zero]
    exact ⟨hl, SameRegion.refl s, rfl⟩

theorem initEntries_spec : ∀ (mmap : List BootMmapEntry) (s : PmmBuddyState), ListsOk s →
      (∀ e ∈ mmap, e.type = .usable → e.base + e.length ≤ 2 ^ 52) →
      ListsOk (mmap.foldl initEntry s) ∧ SameRegion s (mmap.foldl initEntry s) ∧
      freeFrames (mmap.foldl initEntry s) = freeFrames s + (mmap.map BootMmapEntry.frames).sum := by
  intro mmap
  induction mmap with
  | nil => intro s hl _; exact ⟨hl, SameRegion.refl s, by simp⟩
  | cons e rest ih =>
    intro s hl hb
    obtain ⟨hl1, hr1, hf1⟩ := initEntry_spec hl (hb e (by simp))
    obtain ⟨hl2, hr2, hf2⟩ := ih (initEntry s e) hl1 (fun e' he' => hb e' (by simp [he']))
    simp only [List.foldl_cons, List.map_cons, List.sum_cons]
    refine ⟨hl2, hr1.trans hr2, ?_⟩
    rw [hf2, hf1, add_assoc]

/-- The scan finds the end of usable memory. -/
theorem scanMmap_spec : ∀ (mmap : List BootMmapEntry) (m u : Nat),
      (∀ e ∈ mmap, e.type = .usable → e.base + e.length ≤ 2 ^ 52) →
      let r := (scanMmap mmap m u).1
      m ≤ r ∧ (∀ e ∈ mmap, e.type = .usable → e.base + e.length ≤ r) ∧
      (r = m ∨ ∃ e ∈ mmap, e.type = .usable ∧ r = e.base + e.length) := by
  intro mmap
  induction mmap with
  | nil => intro m u _; simp [scanMmap]
  | cons e rest ih =>
    intro m u hb
    have hb' : ∀ e ∈ rest, e.type = .usable → e.base + e.length ≤ 2 ^ 52 :=
      fun e' he' => hb e' (by simp [he'])
    simp only [scanMmap]
    split
    · next hu =>
      have hstop : u64 (e.base + e.length) = e.base + e.length :=
        u64_of_lt (by have := hb e (by simp) hu; omega)
      rw [hstop]
      have hk : (if e.base + e.length > m then e.base + e.length else m) =
          max m (e.base + e.length) := by
        split <;> omega
      rw [hk]
      obtain ⟨h1, h2, h3⟩ := ih (max m (e.base + e.length)) (u64 (u + e.length / pageSize)) hb'
      refine ⟨by omega, ?_, ?_⟩
      · refine List.forall_mem_cons.mpr ⟨?_, h2⟩
        intro hu'
        omega
      rcases h3 with h3 | ⟨e', he', hu', h3⟩
      · rcases Nat.le_total m (e.base + e.length) with hle | hle
        · exact .inr ⟨e, by simp, hu, by omega⟩
        · exact .inl (by omega)
      · exact .inr ⟨e', by simp [he'], hu', h3⟩
    next hu =>
    obtain ⟨h1, h2, h3⟩ := ih m u hb'
    refine ⟨h1, ?_, ?_⟩
    · exact List.forall_mem_cons.mpr ⟨fun hu' => absurd hu' hu, h2⟩
    · rcases h3 with h3 | ⟨e', he', hu', h3⟩
      · exact .inl h3
      · exact .inr ⟨e', by simp [he'], hu', h3⟩

/-- An address inside an entry. -/
def BootMmapEntry.Covers (e : BootMmapEntry) (x : Nat) : Prop :=
  e.base ≤ x ∧ x < e.base + e.length

/-- The usable entries of the memory map are pairwise disjoint. -/
def BootInfo.UsableDisjoint (bi : BootInfo) : Prop :=
  bi.mmap.Pairwise fun e e' => e.type = .usable → e'.type = .usable →
    ∀ x, e.Covers x → ¬ e'.Covers x

theorem mem_entries_sum {n : Nat} :
    ∀ {mmap : List BootMmapEntry}, n ∈ (mmap.map g).sum ↔ ∃ e ∈ mmap, n ∈ g e := by
  intro mmap
  induction mmap with
  | nil => simp
  | cons e rest ih => simp [ih]

/-- What disjoint entries contribute is disjoint, if each contribution can be traced to a
    byte of its entry. -/
theorem entries_sum_nodup {k : Nat → Nat} (hnodup : ∀ e, (g e).Nodup)
    (hbyte : ∀ e, ∀ n ∈ g e, e.type = .usable ∧ e.Covers (k n)) : ∀ (mmap : List BootMmapEntry),
      (mmap.Pairwise fun e e' => e.type = .usable → e'.type = .usable →
        ∀ x, e.Covers x → ¬ e'.Covers x) →
      ((mmap.map g).sum).Nodup := by
  intro mmap
  induction mmap with
  | nil => intro _; simp
  | cons e rest ih =>
    intro hp
    rw [List.pairwise_cons] at hp
    rw [List.map_cons, List.sum_cons, nodup_add]
    refine ⟨hnodup e, ih hp.2, ?_⟩
    rw [Multiset.disjoint_left]
    intro n hn hrest
    -- the byte of a common element would be covered twice
    obtain ⟨e', he', hnl⟩ := mem_entries_sum.mp hrest
    obtain ⟨hu, hcov⟩ := hbyte e n hn
    obtain ⟨hu', hcov'⟩ := hbyte e' n hnl
    exact hp.1 e' he' hu hu' (k n) hcov hcov'

theorem BootMmapEntry.frames_nodup (e : BootMmapEntry) : e.frames.Nodup := by
  unfold BootMmapEntry.frames
  split
  · exact nodup_span _ _
  · exact nodup_zero

theorem entries_nodup (mmap : List BootMmapEntry)
    (hp : mmap.Pairwise fun e e' => e.type = .usable → e'.type = .usable →
      ∀ x, e.Covers x → ¬ e'.Covers x) :
    ((mmap.map BootMmapEntry.frames).sum).Nodup := by
  refine entries_sum_nodup (k := fun f => f * pageSize) BootMmapEntry.frames_nodup ?_ mmap hp
  intro e f hf
  obtain ⟨hu, _, hlo, hhi⟩ := BootMmapEntry.mem_frames hf
  have hpos := pageSize_pos
  rw [Nat.add_mul, Nat.one_mul] at hhi
  exact ⟨hu, hlo, by omega⟩

/-- **`pmm_init`** puts exactly the frames of the usable entries on the free
    lists, and leaves a well-formed allocator. -/
theorem pmmInit_spec (bi : BootInfo) (hd : bi.UsableDisjoint) :
    Wf (pmmInit bi) ∧ (pmmInit bi).hhdmOffset = bi.hhdmOffset ∧
      freeFrames (pmmInit bi) = (bi.mmap.map BootMmapEntry.frames).sum := by
  have hbound : ∀ e ∈ bi.mmap, e.type = .usable → e.base + e.length ≤ 2 ^ 52 :=
    fun e he hu => (bi.direct_map e he hu).1
  obtain ⟨_, hends, hmax⟩ := scanMmap_spec bi.mmap 0 0 hbound
  unfold pmmInit
  generalize scanMmap bi.mmap 0 0 = r at hends hmax
  obtain ⟨maxPhys, usablePages⟩ := r
  simp only at hends hmax ⊢
  have hmaxle : maxPhys ≤ 2 ^ 52 ∧ bi.hhdmOffset + maxPhys ≤ 2 ^ 64 := by
    rcases hmax with rfl | ⟨e, he, hu, rfl⟩
    · have := bi.hhdm_lt
      omega
    · exact bi.direct_map e he hu
  have halign : alignUp maxPhys pageSize = (maxPhys + pageSize - 1) / pageSize * pageSize := by
    unfold alignUp
    rw [u64_of_lt ?_]
    simp only [pageSize]
    omega
  generalize hs0 : (⟨bi.hhdmOffset, 0, alignUp maxPhys pageSize,
    alignUp maxPhys pageSize >>> pageShift, usablePages, 0, fun _ => []⟩ : PmmBuddyState) = s0
  have hempty : freeBlocks s0 = 0 := by
    rw [← hs0]
    simp [freeBlocks, listBlocks]
  have hl0 : ListsOk s0 := by
    constructor
    · intro o b hb
      rw [← hs0] at hb
      simp at hb
    · intro b hb
      rw [hempty] at hb
      simp at hb
  obtain ⟨hl, hr, hf⟩ := initEntries_spec bi.mmap s0 hl0 hbound
  have hf' : freeFrames (bi.mmap.foldl initEntry s0) = (bi.mmap.map BootMmapEntry.frames).sum := by
    rw [hf, freeFrames, hempty, zero_bind, zero_add]
  have hend : (bi.mmap.foldl initEntry s0).memEnd =
      (maxPhys + pageSize - 1) / pageSize * pageSize := by
    rw [hr.memEnd, ← hs0, ← halign]
  have hhdm : (bi.mmap.foldl initEntry s0).hhdmOffset = bi.hhdmOffset := by
    rw [hr.hhdmOffset, ← hs0]
  refine ⟨?_, hhdm, hf'⟩
  obtain ⟨q, hq⟩ := bi.hhdm_aligned
  refine ⟨hl, ?_, ?_, ?_, ?_, ?_, ?_, ?_⟩
  · rw [hf']
    exact entries_nodup bi.mmap hd
  · intro f hmem
    rw [hf'] at hmem
    obtain ⟨e, he, hfe⟩ := mem_entries_sum.mp hmem
    obtain ⟨hu, hmin, _, hhi⟩ := BootMmapEntry.mem_frames hfe
    have := hends e he hu
    refine ⟨hmin, ?_⟩
    rw [hend, Nat.mul_div_cancel _ pageSize_pos]
    simp only [pageSize] at hhi ⊢
    omega
  · rw [hr.memStart, ← hs0]
  · rw [hend]
    exact Nat.dvd_mul_left _ _
  · rw [hend]
    simp only [pageSize]
    omega
  · rw [hhdm, hend]
    simp only [pageSize] at hq ⊢
    omega
  · rw [hr.totalPages, hr.memEnd, ← hs0]
    simp only [Nat.shiftRight_eq_div_pow]
    rfl

/-! ## Section 2: The allocator as a state machine -/

/-- A live allocation: the pointer that was returned and the page count that
    was asked for. -/
structure Alloc where
  addr  : Nat
  pages : Nat
  deriving DecidableEq, Repr

/-- The allocator together with the allocations its callers still hold. -/
structure PmmSys where
  buddy : PmmBuddyState
  live  : List Alloc

/-- The calls of a run. -/
inductive PmmCall where
  | alloc (pages : Nat)
  | allocZero (pages : Nat)
  | allocBelow (pages maxPhys : Nat)
  | free (a : Alloc)

/-- The callers' record after an allocation call returned `p`. -/
def record (live : List Alloc) (p pages : Nat) : List Alloc :=
  if p ≠ 0 then ⟨p, pages⟩ :: live else live

/-- One call. A call that does not return has no successor state; `free` is
    only called on a live allocation with its own page count. -/
def PmmStep (st : PmmSys) (c : PmmCall) (st' : PmmSys) : Prop :=
  match c with
  | .alloc pages =>
      ∃ p s', pmmAlloc st.buddy pages = some (p, s') ∧ st' = ⟨s', record st.live p pages⟩
  | .allocZero pages =>
      ∃ p s', pmmAllocZero st.buddy pages = some (p, s') ∧ st' = ⟨s', record st.live p pages⟩
  | .allocBelow pages maxPhys =>
      ∃ p s', pmmAllocBelow st.buddy pages maxPhys = some (p, s') ∧
        st' = ⟨s', record st.live p pages⟩
  | .free a =>
      a ∈ st.live ∧ ∃ s', pmmFree st.buddy a.addr a.pages = some s' ∧
        st' = ⟨s', st.live.erase a⟩

/-- The state after one call. -/
def PmmSys.next (st : PmmSys) : PmmCall → Option PmmSys
  | .alloc pages =>
    (pmmAlloc st.buddy pages).map fun r => ⟨r.2, record st.live r.1 pages⟩
  | .allocZero pages =>
    (pmmAllocZero st.buddy pages).map fun r => ⟨r.2, record st.live r.1 pages⟩
  | .allocBelow pages maxPhys =>
    (pmmAllocBelow st.buddy pages maxPhys).map fun r => ⟨r.2, record st.live r.1 pages⟩
  | .free a =>
    if a ∈ st.live then
      (pmmFree st.buddy a.addr a.pages).map fun s => ⟨s, st.live.erase a⟩
    else none

theorem PmmSys.next_step {c : PmmCall} {st' : PmmSys} (h : st.next c = some st') :
    PmmStep st c st' := by
  cases c with
  | free a =>
    obtain ⟨ha, h⟩ := Option.ite_none_right_eq_some.mp h
    obtain ⟨s, hs, rfl⟩ := Option.map_eq_some_iff.mp h
    exact ⟨ha, s, hs, rfl⟩
  | _ =>
    obtain ⟨r, hr, rfl⟩ := Option.map_eq_some_iff.mp h
    exact ⟨r.1, r.2, hr, rfl⟩

/-- Every run of the allocator on one memory map. -/
def pmmSystem (bi : BootInfo) : System PmmSys PmmCall where
  init := fun st => st = ⟨pmmInit bi, []⟩
  step := PmmStep

/-- The block behind an allocation, rounded up to its order. -/
def Alloc.block (s : PmmBuddyState) (a : Alloc) : PmmBlock :=
  ⟨sub64 a.addr s.hhdmOffset, (pagesToOrder a.pages).join.getD 0⟩

/-! ## Section 3: The invariant -/

/-- The frames of the live allocations. -/
def liveFrames (s : PmmBuddyState) (live : List Alloc) : Multiset Nat :=
  (live.map fun a => (a.block s).frames).sum

/-- **Invariant.** The free frames and the frames of the live allocations are,
    counted with multiplicity, the frames that `pmm_init` released. -/
structure SysInv (bi : BootInfo) (st : PmmSys) : Prop where
  wf     : Wf st.buddy
  region : SameRegion (pmmInit bi) st.buddy
  live   : ∀ a ∈ st.live, a.pages ≠ 0 ∧ ∃ phys order, a.addr = phys + st.buddy.hhdmOffset ∧
    pagesToOrder a.pages = some (some order) ∧ a.block st.buddy = ⟨phys, order⟩ ∧
    PmmBlock.Aligned ⟨phys, order⟩
  frames : freeFrames st.buddy + liveFrames st.buddy st.live = freeFrames (pmmInit bi)

theorem Alloc.block_congr (h : SameRegion s s') (a : Alloc) : a.block s' = a.block s := by
  unfold Alloc.block
  rw [h.hhdmOffset]

theorem liveFrames_congr (h : SameRegion s s') (live : List Alloc) :
    liveFrames s' live = liveFrames s live := by
  unfold liveFrames
  simp only [Alloc.block_congr h]

theorem sysInv_init (bi : BootInfo) (hd : bi.UsableDisjoint) : SysInv bi ⟨pmmInit bi, []⟩ where
  wf := (pmmInit_spec bi hd).1
  region := SameRegion.refl _
  live := by simp
  frames := by simp [liveFrames]

/-- An allocation call keeps the invariant. -/
theorem sysInv_alloc {pages p : Nat} (hinv : SysInv bi st)
    (hres : AllocResult st.buddy pages p s') :
    SysInv bi ⟨s', record st.live p pages⟩ := by
  cases hres with
  | null => simpa [record] using hinv
  | block phys order hpages horder hmin htaken =>
    have hmin' : 0 < freeMinPhys := by decide
    have hrec : record st.live (phys + st.buddy.hhdmOffset) pages =
        ⟨phys + st.buddy.hhdmOffset, pages⟩ :: st.live := by
      unfold record
      rw [if_pos (by omega)]
    have hlt : phys + st.buddy.hhdmOffset < 2 ^ 64 := by
      have hrange := htaken.aligned.phys_range hinv.wf (htaken.phys_range hinv.wf)
      have hpos := Nat.two_pow_pos (pageShift + order)
      have hdm := hinv.wf.direct_map
      simp only at hrange
      omega
    have hblock : Alloc.block s' ⟨phys + st.buddy.hhdmOffset, pages⟩ = ⟨phys, order⟩ := by
      unfold Alloc.block
      simp only [htaken.region.hhdmOffset, horder]
      rw [sub64_of_le hlt (by omega), Nat.add_sub_cancel]
      rfl
    rw [hrec]
    refine ⟨htaken.wf, hinv.region.trans htaken.region, ?_, ?_⟩
    · intro a ha
      rcases List.mem_cons.mp ha with rfl | ha
      · refine ⟨hpages, phys, order, ?_, horder, hblock, htaken.aligned⟩
        rw [htaken.region.hhdmOffset]
      · rw [Alloc.block_congr htaken.region, htaken.region.hhdmOffset]
        exact hinv.live a ha
    have hold := hinv.frames
    have hcons : liveFrames s' (⟨phys + st.buddy.hhdmOffset, pages⟩ :: st.live) =
        frames ⟨phys, order⟩ + liveFrames st.buddy st.live := by
      rw [← liveFrames_congr htaken.region]
      simp [liveFrames, hblock]
    rw [hcons, ← hold, htaken.frames]
    abel

/-- What one call of a run does. -/
theorem PmmStep.cases (hwf : Wf st.buddy) (hstep : PmmStep st c st') :
    (∃ pages p s', AllocCall st.buddy pages p s' ∧ st' = ⟨s', record st.live p pages⟩ ∧
      ∀ a, c ≠ .free a) ∨
    ∃ a s', c = .free a ∧ a ∈ st.live ∧ pmmFree st.buddy a.addr a.pages = some s' ∧
      st' = ⟨s', st.live.erase a⟩ := by
  cases c with
  | alloc pages =>
    obtain ⟨p, s', hcall, rfl⟩ := hstep
    exact .inl ⟨pages, p, s', pmmAlloc_call hwf hcall, rfl, nofun⟩
  | allocZero pages =>
    obtain ⟨p, s', hcall, rfl⟩ := hstep
    exact .inl ⟨pages, p, s', pmmAllocZero_call hwf hcall, rfl, nofun⟩
  | allocBelow pages maxPhys =>
    obtain ⟨p, s', hcall, rfl⟩ := hstep
    exact .inl ⟨pages, p, s', pmmAllocBelow_call hwf hcall, rfl, nofun⟩
  | free a =>
    obtain ⟨ha, s', hcall, rfl⟩ := hstep
    exact .inr ⟨a, s', rfl, ha, hcall, rfl⟩

/-- What is known of a live allocation when it is freed. -/
structure LiveBlock (s : PmmBuddyState) (a : Alloc) (b : PmmBlock) : Prop where
  block    : a.block s = b
  aligned  : b.Aligned
  range    : ∀ f ∈ b.frames, freeMinPhys / pageSize ≤ f ∧ f < s.memEnd / pageSize
  disjoint : Disjoint b.frames (freeFrames s)
  call     : pmmFree s a.addr a.pages = some (buddyFreeOrder s b.phys b.order)

theorem SysInv.frames_erase (hinv : SysInv bi st) (ha : a ∈ st.live) : freeFrames st.buddy +
      ((a.block st.buddy).frames + liveFrames st.buddy (st.live.erase a)) =
        freeFrames (pmmInit bi) := by
  have hperm := (List.perm_cons_erase ha).map fun a => (a.block st.buddy).frames
  have hsum := hperm.sum_eq
  rw [List.map_cons, List.sum_cons] at hsum
  rw [← hinv.frames]
  unfold liveFrames
  rw [hsum]

section

variable (hd : bi.UsableDisjoint) (hinv : SysInv bi st)
include hd hinv

theorem SysInv.liveBlock (ha : a ∈ st.live) :
    ∃ b, LiveBlock st.buddy a b := by
  obtain ⟨hpages, phys, order, haddr, horder, hblock, haligned⟩ := hinv.live a ha
  have hframes := hinv.frames_erase ha
  rw [hblock] at hframes
  have hwf0 := (pmmInit_spec bi hd).1
  have hnodup := hwf0.nodup
  rw [← hframes, nodup_add] at hnodup
  have hdisj : Disjoint (PmmBlock.frames ⟨phys, order⟩) (freeFrames st.buddy) := by
    rw [Multiset.disjoint_left]
    intro f hf hfree
    exact Multiset.disjoint_left.mp hnodup.2.2 hfree (mem_add.mpr (.inl hf))
  have hrange : ∀ f ∈ PmmBlock.frames ⟨phys, order⟩,
      freeMinPhys / pageSize ≤ f ∧ f < st.buddy.memEnd / pageSize := by
    intro f hf
    rw [hinv.region.memEnd]
    apply hwf0.range
    rw [← hframes]
    simp [hf]
  refine ⟨⟨phys, order⟩, ⟨hblock, haligned, hrange, hdisj, ?_⟩⟩
  rw [haddr, pmmFree_eq hinv.wf hpages horder haligned hrange,
    flFind_of_disjoint hinv.wf.lists haligned.1 hdisj]
  rfl

/-- Freeing a live allocation keeps the invariant. -/
theorem sysInv_free (ha : a ∈ st.live) (hcall : pmmFree st.buddy a.addr a.pages = some s') :
    SysInv bi ⟨s', st.live.erase a⟩ := by
  obtain ⟨b, hb⟩ := hinv.liveBlock hd ha
  have hframes := hinv.frames_erase ha
  have hmin := (hb.aligned.phys_range hinv.wf hb.range).1
  obtain ⟨hl, hreg, hfr⟩ := buddyFreeOrder_spec hinv.wf.lists hb.aligned hmin
  rw [hb.call] at hcall
  cases hcall
  refine ⟨hinv.wf.of_add hl hreg hfr hb.range hb.disjoint, hinv.region.trans hreg, ?_, ?_⟩
  · intro c hc
    rw [Alloc.block_congr hreg, hreg.hhdmOffset]
    exact hinv.live c (List.mem_of_mem_erase hc)
  · show freeFrames (buddyFreeOrder st.buddy b.phys b.order) + liveFrames _ _ = _
    rw [liveFrames_congr hreg, hfr, ← hframes, hb.block]
    abel

theorem sysInv_step (hstep : PmmStep st c st') : SysInv bi st' := by
  rcases hstep.cases hinv.wf with ⟨pages, p, s', hcall, rfl, _⟩ | ⟨a, s', _, ha, hcall, rfl⟩
  · exact sysInv_alloc hinv (hcall.result hinv.wf)
  · exact sysInv_free hd hinv ha hcall

end

theorem sysInv_reachable (hd : bi.UsableDisjoint) (hr : (pmmSystem bi).Reachable st) :
    SysInv bi st := by
  refine System.Reachable.induct ?_ ?_ hr
  · rintro s rfl
    exact sysInv_init bi hd
  · intro s c s' _ hinv hstep
    exact sysInv_step hd hinv hstep

/-! ## Section 4: The blocks tile the initial frames -/

/-- The frames of a block as a set. -/
def PmmBlock.frameSet (b : PmmBlock) : Finset Nat :=
  Finset.Ico (b.phys / pageSize) (b.phys / pageSize + 2 ^ b.order)

theorem PmmBlock.mem_frameSet {b : PmmBlock} : f ∈ b.frameSet ↔ f ∈ b.frames := by
  simp [frameSet, mem_frames]

/-- The blocks on the free lists, by order, each under the order of its list. -/
def freeBlockList (s : PmmBuddyState) : List PmmBlock :=
  (List.range (maxOrder + 1)).flatMap fun o => (s.orders o).map fun b => ⟨b.phys, o⟩

/-- The free blocks followed by the blocks of the live allocations. -/
def PmmSys.blocks (st : PmmSys) : List PmmBlock :=
  freeBlockList st.buddy ++ st.live.map (·.block st.buddy)

theorem coe_freeBlockList (s : PmmBuddyState) :
    (↑(freeBlockList s) : Multiset PmmBlock) = freeBlocks s := by
  rfl

theorem blocks_frames (st : PmmSys) : (↑st.blocks : Multiset PmmBlock).bind frames =
      freeFrames st.buddy + liveFrames st.buddy st.live := by
  unfold PmmSys.blocks
  rw [← coe_add, add_bind, coe_freeBlockList]
  congr 1
  unfold liveFrames Multiset.bind Multiset.join
  simp [List.map_map]
  rfl

/-- An entry contains every byte of a frame. -/
def BootMmapEntry.CoversFrame (e : BootMmapEntry) (f : Nat) : Prop :=
  e.base ≤ f * pageSize ∧ (f + 1) * pageSize ≤ e.base + e.length

/-- No usable entry begins where another one ends. -/
def BootInfo.UsableApart (bi : BootInfo) : Prop :=
  ∀ e ∈ bi.mmap, ∀ e' ∈ bi.mmap, e.type = .usable → e'.type = .usable →
    0 < e.length → 0 < e'.length → e.base + e.length ≠ e'.base

/-- The safety property of one state of the allocator. -/
structure Tiles (bi : BootInfo) (st : PmmSys) : Prop where
  /-- No two blocks, free or live, share a frame. -/
  disjoint  : st.blocks.Pairwise fun b c => Disjoint b.frameSet c.frameSet
  /-- Blocks are aligned to their size. -/
  aligned   : ∀ b ∈ st.blocks, b.Aligned
  above_min : ∀ b ∈ st.blocks, freeMinPhys ≤ b.phys
  /-- Every frame of a block lies inside a usable entry. -/
  usable    : ∀ b ∈ st.blocks, ∀ f ∈ b.frameSet,
    ∃ e ∈ bi.mmap, e.type = .usable ∧ e.CoversFrame f
  /-- Where no two usable entries touch, the whole block lies inside one. -/
  one_entry : bi.UsableApart → ∀ b ∈ st.blocks,
    ∃ e ∈ bi.mmap, e.type = .usable ∧ ∀ f ∈ b.frameSet, e.CoversFrame f
  /-- No frame is lost and none is added. -/
  cover     : ∀ f, (∃ b ∈ st.blocks, f ∈ b.frameSet) ↔
    ∃ b ∈ freeBlockList (pmmInit bi), f ∈ b.frameSet

theorem UsableDisjoint.of_mem (hd : bi.UsableDisjoint) (he : e ∈ bi.mmap) (he' : e' ∈ bi.mmap)
    (hne : e ≠ e') (hu : e.type = .usable) (hu' : e'.type = .usable) (x : Nat) :
    e.Covers x → ¬ e'.Covers x := by
  have : Std.Symm fun (a b : BootMmapEntry) =>
      a.type = .usable → b.type = .usable → ∀ x, a.Covers x → ¬ b.Covers x :=
    ⟨fun a b h hb ha x hbx hax => h ha hb x hax hbx⟩
  exact hd.forall he he' hne hu hu' x

/-- Frames that follow each other lie in one usable entry unless two entries touch. -/
theorem same_entry_succ (hd : bi.UsableDisjoint) (hapart : bi.UsableApart) (he : e ∈ bi.mmap)
    (he' : e' ∈ bi.mmap) (hu : e.type = .usable) (hu' : e'.type = .usable) (hf : e.CoversFrame f)
    (hf' : e'.CoversFrame (f + 1)) : e.CoversFrame (f + 1) := by
  by_cases hee : e = e'
  · rw [hee]
    exact hf'
  exfalso
  obtain ⟨hlo, hhi⟩ := hf
  obtain ⟨hlo', hhi'⟩ := hf'
  have hpos := pageSize_pos
  have hstep : (f + 1 + 1) * pageSize = (f + 1) * pageSize + pageSize := by
    rw [Nat.add_mul (f + 1), Nat.one_mul]
  have hstep0 : (f + 1) * pageSize = f * pageSize + pageSize := by
    rw [Nat.add_mul, Nat.one_mul]
  have hdis := UsableDisjoint.of_mem hd he he' hee hu hu'
  have hend : e.base + e.length = (f + 1) * pageSize := by
    by_contra hne
    exact hdis ((f + 1) * pageSize) ⟨by omega, by omega⟩ ⟨hlo', by omega⟩
  have hbase : e'.base = (f + 1) * pageSize := by
    by_contra hne
    exact hdis ((f + 1) * pageSize - 1) ⟨by omega, by omega⟩ ⟨by omega, by omega⟩
  exact hapart e he e' he' hu hu' (by omega) (by omega) (by omega)

/-- **The free lists and the live allocations tile the initial free memory**,
    in every state of every run. -/
theorem blocks_tile_memory (bi : BootInfo) (hd : bi.UsableDisjoint) {st : PmmSys}
    (hr : (pmmSystem bi).Reachable st) : Tiles bi st := by
  have hinv := sysInv_reachable hd hr
  have hinit := pmmInit_spec bi hd
  have hall : (↑st.blocks : Multiset PmmBlock).bind frames = freeFrames (pmmInit bi) := by
    rw [blocks_frames, hinv.frames]
  have hnodup : ((↑st.blocks : Multiset PmmBlock).bind frames).Nodup := by
    rw [hall]
    exact hinit.1.nodup
  have haligned : ∀ b ∈ st.blocks, b.Aligned := by
    intro b hb
    rcases List.mem_append.mp hb with hb | hb
    · apply hinv.wf.lists.aligned
      exact hb
    obtain ⟨a, ha, rfl⟩ := List.mem_map.mp hb
    obtain ⟨_, phys, order, _, _, hblock, hal⟩ := hinv.live a ha
    rw [hblock]
    exact hal
  have hmem : ∀ b ∈ st.blocks, ∀ f ∈ b.frameSet, f ∈ freeFrames (pmmInit bi) := by
    intro b hb f hf
    rw [← hall, mem_bind]
    exact ⟨b, hb, mem_frameSet.mp hf⟩
  have husable : ∀ b ∈ st.blocks, ∀ f ∈ b.frameSet,
      ∃ e ∈ bi.mmap, e.type = .usable ∧ e.CoversFrame f := by
    intro b hb f hf
    have := hmem b hb f hf
    rw [hinit.2.2] at this
    obtain ⟨e, he, hfe⟩ := mem_entries_sum.mp this
    obtain ⟨hu, _, hlo, hhi⟩ := BootMmapEntry.mem_frames hfe
    exact ⟨e, he, hu, hlo, hhi⟩
  refine ⟨?_, haligned, ?_, husable, ?_, ?_⟩
  · have hpair := (nodup_bind.mp hnodup).2
    rw [pairwise_coe_iff_pairwise] at hpair
    refine hpair.imp ?_
    intro b c hbc
    rw [Finset.disjoint_left]
    intro f hf hf'
    exact Multiset.disjoint_left.mp hbc (mem_frameSet.mp hf) (mem_frameSet.mp hf')
  · intro b hb
    apply ((haligned b hb).phys_range hinit.1 _).1
    intro f hf
    exact hinit.1.range f (hmem b hb f (mem_frameSet.mpr hf))
  · intro hapart b hb
    obtain ⟨e, he, hu, hfst⟩ := husable b hb _ (mem_frameSet.mpr b.first_mem_frames)
    refine ⟨e, he, hu, ?_⟩
    -- walk up the frames of the block from the first one
    have hwalk : ∀ k, k < 2 ^ b.order → e.CoversFrame (b.phys / pageSize + k) := by
      intro k
      induction k with
      | zero => intro _; exact hfst
      | succ k ih =>
        intro hk
        have hin : b.phys / pageSize + (k + 1) ∈ b.frameSet := by
          rw [mem_frameSet, mem_frames]
          omega
        obtain ⟨e', he', hu', hf'⟩ := husable b hb _ hin
        exact same_entry_succ hd hapart he he' hu hu' (ih (by omega)) hf'
    intro f hf
    rw [mem_frameSet, mem_frames] at hf
    have := hwalk (f - b.phys / pageSize) (by omega)
    rwa [Nat.add_sub_cancel' hf.1] at this
  intro f
  have hleft : (∃ b ∈ st.blocks, f ∈ b.frameSet) ↔
      f ∈ (↑st.blocks : Multiset PmmBlock).bind frames := by
    simp [mem_bind, mem_frameSet]
  have hright : (∃ b ∈ freeBlockList (pmmInit bi), f ∈ b.frameSet) ↔
      f ∈ freeFrames (pmmInit bi) := by
    rw [freeFrames, ← coe_freeBlockList]
    simp [mem_bind, mem_frameSet]
  rw [hleft, hright, hall]

/-! ### A block may span two entries -/

/-- Two usable pages that follow each other in two entries. -/
def touchingMap : BootInfo where
  hhdmOffset := 0xffff800000000000
  mmap := [⟨0x100000, 0x1000, .usable⟩, ⟨0x101000, 0x1000, .usable⟩]
  hhdm_lt := by decide
  hhdm_aligned := by decide
  direct_map := by decide

/-- The allocator after `pmm_init` on that map: two pages of order 0. -/
def touchingState : PmmBuddyState where
  hhdmOffset := 0xffff800000000000
  memStart := 0
  memEnd := 0x102000
  totalPages := 0x102
  usablePages := 2
  freePages := 2
  orders := Function.update (Function.update (fun _ => []) 0 [⟨0x100000, 0⟩]) 0
    [⟨0x101000, 0⟩, ⟨0x100000, 0⟩]

theorem touchingMap_init : pmmInit touchingMap = touchingState := by
  simp [pmmInit, touchingMap, touchingState, scanMmap, initEntry, alignUp, u64, carve,
    carveOrder, pageSize, freeMinPhys, flPush, setOrder, pageShift, maxOrder]

theorem touchingMap_disjoint : touchingMap.UsableDisjoint := by
  simp only [BootInfo.UsableDisjoint, touchingMap, BootMmapEntry.Covers]
  simp
  omega

theorem touchingState_reachable : (pmmSystem touchingMap).Reachable ⟨touchingState, []⟩ :=
  .init (by rw [← touchingMap_init]; rfl)

/-- Allocating and freeing one of the two pages merges them into a block of
    order 1 that lies in neither entry. -/
theorem merged_block_in_no_entry :
    ∃ st, touchingMap.UsableDisjoint ∧ (pmmSystem touchingMap).Reachable st ∧
      ∃ b ∈ st.blocks, ¬ ∃ e ∈ touchingMap.mmap, e.type = .usable ∧
        ∀ f ∈ b.frameSet, e.CoversFrame f := by
  have hrun : (System.replay PmmSys.next ⟨touchingState, []⟩
      [.alloc 1, .free ⟨0xffff800000101000, 1⟩]).map PmmSys.blocks = some [⟨0x100000, 1⟩] := by
    decide
  obtain ⟨st, hst, hblocks⟩ := Option.map_eq_some_iff.mp hrun
  refine ⟨st, touchingMap_disjoint,
    touchingState_reachable.replay (fun _ _ _ => PmmSys.next_step) hst, ⟨0x100000, 1⟩,
    by simp [hblocks], ?_⟩
  simp [touchingMap, BootMmapEntry.CoversFrame, frameSet, pageSize]
  refine ⟨⟨0x101, ?_⟩, ⟨0x100, ?_⟩⟩ <;> omega

/-! ### One block of four pages -/

/-- A usable entry of four pages. -/
def fourMap : BootInfo where
  hhdmOffset := 0xffff800000000000
  mmap := [⟨0x100000, 0x4000, .usable⟩]
  hhdm_lt := touchingMap.hhdm_lt
  hhdm_aligned := touchingMap.hhdm_aligned
  direct_map := by decide

/-- The allocator after `pmm_init` on that map. -/
def fourState : PmmBuddyState where
  hhdmOffset := 0xffff800000000000
  memStart := 0
  memEnd := 0x104000
  totalPages := 0x104
  usablePages := 4
  freePages := 4
  orders := Function.update (fun _ => []) 2 [⟨0x100000, 2⟩]

theorem fourMap_init : pmmInit fourMap = fourState := by
  simp [pmmInit, fourMap, fourState, scanMmap, initEntry, alignUp, u64, carve,
    carveOrder, pageSize, freeMinPhys, flPush, setOrder, pageShift, maxOrder]

theorem fourMap_disjoint : fourMap.UsableDisjoint := by
  simp [BootInfo.UsableDisjoint, fourMap]

theorem fourState_reachable : (pmmSystem fourMap).Reachable ⟨fourState, []⟩ :=
  .init (by rw [← fourMap_init]; rfl)

/-- The state after calls. -/
def fourRun (calls : List PmmCall) : Option PmmSys :=
  System.replay PmmSys.next ⟨fourState, []⟩ calls

theorem fourRun_reachable {calls : List PmmCall} (h : fourRun calls = some st) :
    (pmmSystem fourMap).Reachable st :=
  fourState_reachable.replay (fun _ _ _ => PmmSys.next_step) h

/-- A page and a block of two pages are allocated; the page is freed and merged with its
    buddy. -/
def mergedCalls : List PmmCall := [.alloc 1, .alloc 2, .free ⟨0xffff800000100000, 1⟩]

theorem blocks_tile_memory_merged :
    ∃ st, fourMap.UsableDisjoint ∧ (pmmSystem fourMap).Reachable st ∧
      st.live = [⟨0xffff800000102000, 2⟩] ∧ st.blocks = [⟨0x100000, 1⟩, ⟨0x102000, 1⟩] ∧
      Tiles fourMap st := by
  let st := (fourRun mergedCalls).get (by decide)
  have hr : (pmmSystem fourMap).Reachable st := fourRun_reachable (Option.some_get _).symm
  exact ⟨st, fourMap_disjoint, hr, by decide, by decide,
    blocks_tile_memory fourMap fourMap_disjoint hr⟩

/-! ## Section 5: Blocks below a limit -/

/-- A free block has an aligned part of an order, from 1 MiB on and up to `maxPhys`. -/
def HasRoom (s : PmmBuddyState) (order maxPhys : Nat) : Prop :=
  ∃ b ∈ freeBlocks s, ∃ phys, Aligned ⟨phys, order⟩ ∧ freeMinPhys ≤ phys ∧ b.phys ≤ phys ∧
    phys + 2 ^ (pageShift + order) ≤ b.phys + 2 ^ (pageShift + b.order) ∧
    phys + 2 ^ (pageShift + order) ≤ maxPhys

/-- The search is complete: a block that has room has room at its start. -/
theorem findBelow_none {order maxPhys : Nat} (h : Wf s)
    (hfind : findBelow s order (pageSize <<< order) maxPhys = none) :
    ¬ HasRoom s order maxPhys := by
  rintro ⟨b, hb, phys, -, -, hlo, hhi, hend⟩
  obtain ⟨hmin, hmax⟩ := h.phys_range hb
  obtain ⟨ho, c, hc, hphys⟩ := mem_freeBlocks.mp hb
  have hpow : 2 ^ (pageShift + order) ≤ 2 ^ (pageShift + b.order) := by omega
  have hle := (Nat.pow_le_pow_iff_right (by decide)).mp hpow
  have hmem := h.memEnd_le
  unfold findBelow at hfind
  have hnone := List.findSome?_eq_none_iff.mp hfind b.order (by rw [List.mem_range'_1]; omega)
  rw [Option.map_eq_none_iff, List.find?_eq_none] at hnone
  have htest := hnone c hc
  rw [hphys, pageSize_shiftLeft, u64_of_lt (by omega)] at htest
  simp only [Bool.and_eq_true, Bool.not_eq_true', decide_eq_false_iff_not] at htest
  omega

/-- **`pmm_alloc_below` is exact.** It returns a block exactly when pages are asked for and
    some free block has room for their order below the limit; the block ends at or below the
    limit, and its frames are those that leave the free lists. -/
theorem alloc_below_exact (bi : BootInfo) (hd : bi.UsableDisjoint) {st : PmmSys}
    (hr : (pmmSystem bi).Reachable st) (pages maxPhys : Nat) :
    ((∃ p s', pmmAllocBelow st.buddy pages maxPhys = some (p, s') ∧ p ≠ 0) ↔
      pages ≠ 0 ∧ ∃ order, pagesToOrder pages = some (some order) ∧
        HasRoom st.buddy order maxPhys) ∧
    ∀ p s', pmmAllocBelow st.buddy pages maxPhys = some (p, s') → p ≠ 0 →
      ∃ phys order, p = phys + st.buddy.hhdmOffset ∧ pagesToOrder pages = some (some order) ∧
        phys + 2 ^ (pageShift + order) ≤ maxPhys ∧
        freeFrames st.buddy = frames ⟨phys, order⟩ + freeFrames s' := by
  have h := (sysInv_reachable hd hr).wf
  unfold pmmAllocBelow
  by_cases hpages : pages = 0
  · simp [hpages]
  cases horder : pagesToOrder pages with
  | none => simp
  | some r =>
    cases r with
    | none => simp [hpages]
    | some order =>
      simp only [hpages, if_false]
      cases hfind : findBelow st.buddy order (pageSize <<< order) maxPhys with
      | none => simpa [hpages] using findBelow_none h hfind
      | some found =>
        obtain ⟨o, b⟩ := found
        obtain ⟨hle, hmax, hb, hbelow⟩ := findBelow_some hfind
        have hmem := (h.lists.mem hmax hb).1
        obtain ⟨hmin, hend⟩ := h.phys_range hmem
        have htaken := take_block order h hmax hle hb
        have hptr := htaken.physToBlock_eq h
        have hpow : 2 ^ (pageShift + order) ≤ 2 ^ (pageShift + b.order) := by
          rw [h.lists.order_eq o b hb]
          exact Nat.pow_le_pow_right (by decide) (by omega)
        have hzero : 0 < freeMinPhys := by decide
        have hlast := h.memEnd_le
        rw [pageSize_shiftLeft, u64_of_lt (by omega)] at hbelow
        simp only [takeBlock_eq, hptr]
        constructor
        · have hroom : HasRoom st.buddy order maxPhys :=
            ⟨b, hmem, b.phys, htaken.aligned, hmin, le_rfl, by omega, hbelow⟩
          exact ⟨fun _ => ⟨hpages, order, rfl, hroom⟩, fun _ => ⟨_, _, rfl, by omega⟩⟩
        · rintro p s' hcall -
          cases hcall
          exact ⟨b.phys, order, rfl, rfl, hbelow, htaken.frames⟩

/-- No block is returned for no pages, although there is room for one. -/
theorem alloc_below_no_pages : touchingMap.UsableDisjoint ∧
    (pmmSystem touchingMap).Reachable ⟨touchingState, []⟩ ∧
    pagesToOrder 0 = some (some 0) ∧ HasRoom touchingState 0 0x102000 ∧
    pmmAllocBelow touchingState 0 0x102000 = some (0, touchingState) := by
  refine ⟨touchingMap_disjoint, touchingState_reachable, by decide, ?_, rfl⟩
  exact ⟨⟨0x100000, 0⟩, by decide, 0x100000, ⟨by decide, by decide⟩, by decide⟩

/-- After two allocations and a free, two of the four pages are free. -/
theorem alloc_below_exact_merged :
    ∃ st, (pmmSystem fourMap).Reachable st ∧ st.live = [⟨0xffff800000102000, 2⟩] ∧
      ∃ p s', pmmAllocBelow st.buddy 2 0x102000 = some (p, s') ∧ p ≠ 0 := by
  let st := (fourRun mergedCalls).get (by decide)
  have hr : (pmmSystem fourMap).Reachable st := fourRun_reachable (Option.some_get _).symm
  have hexact := alloc_below_exact fourMap fourMap_disjoint hr 2 0x102000
  refine ⟨st, hr, by decide, hexact.1.mpr ⟨by decide, 1, by decide, ?_⟩⟩
  exact ⟨⟨0x100000, 1⟩, by decide, 0x100000, ⟨by decide, by decide⟩, by decide⟩

end Cervus.Pmm
