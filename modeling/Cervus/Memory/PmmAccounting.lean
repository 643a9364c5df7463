import Cervus.Memory.PmmRuns
import Mathlib.Algebra.Order.BigOperators.Group.Finset

/-! # Accounting: the page counter and double frees

    Two results about what `pmm_free` reads of the free lists.

    * `free_pages` should be the number of free pages. `_buddy_free_order` adds the size
      of the block that it has pushed, which after coalescing is not the size of the block
      that was freed: the pages of the buddies are counted a second time. The counter is
      clamped to `usable_pages`, so that the error is hidden when everything is free.
      `free_pages_accurate` says for which calls the counter stays right.
    * `pmm_free` looks for the block on the free list of its own order before it frees it.
      A block that was freed, and merged with its buddy, is not found there;
      `double_free_iff` says which double frees are harmless. -/

namespace Cervus.Pmm

open Cervus.Frames PmmBlock Option Finset Multiset

/-! ## Section 1: Counting and finding free blocks -/

/-- The number of pages on the free lists. -/
def freeCount (s : PmmBuddyState) : Nat :=
  ∑ o ∈ Finset.range (maxOrder + 1), 2 ^ o * (s.orders o).length

theorem PmmBlock.card_frames (b : PmmBlock) : Multiset.card b.frames = 2 ^ b.order := by
  simp [frames, span]

theorem card_bind_listBlocks (s : PmmBuddyState) (o : Nat) :
    Multiset.card ((listBlocks s o).bind frames) = 2 ^ o * (s.orders o).length := by
  unfold listBlocks
  rw [card_bind]
  induction s.orders o with
  | nil => rfl
  | cons b rest ih =>
    rw [List.map_cons, ← cons_coe, Multiset.map_cons, Multiset.sum_cons, ih,
      Function.comp_apply, card_frames, List.length_cons, Nat.mul_add, Nat.mul_one,
      Nat.add_comm]

theorem card_freeFrames (s : PmmBuddyState) : Multiset.card (freeFrames s) = freeCount s := by
  unfold freeFrames freeBlocks freeCount
  induction Finset.range (maxOrder + 1) using Finset.induction_on with
  | empty => simp
  | insert o t ho ih =>
    rw [sum_insert ho, sum_insert ho, add_bind, card_add, ih,
      card_bind_listBlocks]

variable {s s' : PmmBuddyState} {o phys pages p : Nat} {st st' : PmmSys} {c : PmmCall}
  {b : PmmBlock} (bi : BootInfo)

/-- No more pages are free than memory has. -/
theorem Wf.freeCount_le (h : Wf s) : freeCount s ≤ s.totalPages := by
  have hsub : (freeFrames s).toFinset ⊆ Finset.range (s.memEnd / pageSize) := by
    intro f hf
    rw [Finset.mem_range]
    exact (h.range f (Multiset.mem_toFinset.mp hf)).2
  have hcard := Finset.card_le_card hsub
  rw [toFinset_card_of_nodup h.nodup, card_freeFrames, Finset.card_range] at hcard
  rw [h.totalPages_eq]
  exact hcard

theorem Wf.length_le (h : Wf s) (ho : o ≤ maxOrder) : (s.orders o).length ≤ s.totalPages := by
  have hterm : 2 ^ o * (s.orders o).length ≤ freeCount s :=
    Finset.single_le_sum (f := fun o => 2 ^ o * (s.orders o).length) (fun _ _ => Nat.zero_le _)
      (Finset.mem_range.mpr (Nat.lt_succ_of_le ho))
  have hle : (s.orders o).length ≤ 2 ^ o * (s.orders o).length :=
    Nat.le_mul_of_pos_left _ (Nat.two_pow_pos o)
  have hcount := h.freeCount_le
  omega

/-- The loop of `_fl_find` finds what is on the list, if its limit is not too small. -/
theorem flFindLoop_complete :
    ∀ (l : List PmmBlock) (limit : Nat), (∀ c ∈ l, blockPtrValid s c.phys = true) →
      l.length ≤ limit → (∃ b ∈ l, b.phys = phys) → (flFindLoop s phys limit l).isSome = true := by
  intro l
  induction l with
  | nil =>
    intro limit _ _ h
    obtain ⟨b, hb, _⟩ := h
    exact nomatch hb
  | cons c rest ih =>
    intro limit hvalid hlen h
    obtain ⟨b, hb, hphys⟩ := h
    have hc := hvalid c (.head _)
    unfold flFindLoop
    by_cases heq : c.phys = phys
    · rw [heq] at hc
      simp [hc, heq]
    -- the block is further down, so the next pointer is that of a block
    have hb' : b ∈ rest := by
      rcases List.mem_cons.mp hb with rfl | hb'
      · exact absurd hphys heq
      · exact hb'
    have hnext : nextPtrValid s rest = true := by
      cases rest with
      | nil => rfl
      | cons d rest => exact hvalid d (by simp)
    obtain ⟨limit, rfl⟩ : ∃ n, limit = n + 1 := ⟨limit - 1, by simp at hlen; omega⟩
    simp only [hc, heq, hnext, Bool.not_true, Bool.false_eq_true, if_false]
    exact ih limit (fun d hd => hvalid d (.tail _ hd)) (by simpa using hlen)
      ⟨b, hb', hphys⟩

/-- **`_fl_find`** finds exactly the blocks of the list. -/
theorem Wf.flFind_isSome (h : Wf s) (ho : o ≤ maxOrder) :
    (flFind s o phys).isSome = true ↔ (⟨phys, o⟩ : PmmBlock) ∈ s.orders o := by
  constructor
  · intro hsome
    obtain ⟨b, hb⟩ := isSome_iff_exists.mp hsome
    obtain ⟨hmem, hphys⟩ := flFindLoop_sound hb
    have horder := h.lists.order_eq o b hmem
    have heq : b = ⟨phys, o⟩ := by cases b; simp_all
    rw [← heq]
    exact hmem
  · intro hmem
    have hlen := h.length_le ho
    exact flFindLoop_complete _ _ (fun c hc => h.blockPtrValid ho hc) (by omega) ⟨_, hmem, rfl⟩

/-! ## Section 2: Double frees -/

/-- A pointer into the direct map is the address of its frame. -/
theorem Wf.addr_eq (h : Wf s) {addr : Nat} (haddr : addr < 2 ^ 64)
    (hlt : sub64 addr s.hhdmOffset < s.memEnd) : addr = sub64 addr s.hhdmOffset + s.hhdmOffset := by
  have hdm := h.direct_map
  unfold sub64 u64 at hlt ⊢
  omega

/-- **Double free.** Let the block of a `pmm_free` be free already. Then the call leaves
    the free lists as they are if and only if the block itself, and not a larger one that
    it has been merged into or the smaller ones that it was split into, is on the list of
    its order. -/
theorem double_free_iff (bi : BootInfo) (hd : bi.UsableDisjoint) {st : PmmSys}
    (hr : (pmmSystem bi).Reachable st) {addr pages order : Nat} (haddr : addr < 2 ^ 64)
    (hpages : pages ≠ 0) (horder : pagesToOrder pages = some (some order))
    (ha : PmmBlock.Aligned ⟨sub64 addr st.buddy.hhdmOffset, order⟩)
    (hfree : ∀ f ∈ PmmBlock.frames ⟨sub64 addr st.buddy.hhdmOffset, order⟩,
      f ∈ freeFrames st.buddy) :
    ∃ s', pmmFree st.buddy addr pages = some s' ∧
      (s'.orders = st.buddy.orders ↔
        (⟨sub64 addr st.buddy.hhdmOffset, order⟩ : PmmBlock) ∈ st.buddy.orders order) := by
  have hwf := (sysInv_reachable hd hr).wf
  have hrange := fun f hf => hwf.range f (hfree f hf)
  obtain ⟨hmin, hhi⟩ := ha.phys_range hwf hrange
  have hpos := Nat.two_pow_pos (pageShift + order)
  simp only at hmin hhi
  have hcall := pmmFree_eq hwf hpages horder ha hrange
  rw [← hwf.addr_eq haddr (by omega)] at hcall
  refine ⟨_, hcall, ?_⟩
  rw [← hwf.flFind_isSome ha.1]
  by_cases hfind : (flFind st.buddy order (sub64 addr st.buddy.hhdmOffset)).isSome = true
  · simp [hfind]
  -- the frames of the block are put on the free lists once more
  rw [if_neg hfind]
  refine iff_of_false ?_ hfind
  intro hsame
  obtain ⟨_, _, hframes⟩ := buddyFreeOrder_spec hwf.lists ha hmin
  have hcard := congrArg Multiset.card hframes
  rw [card_add, card_freeFrames, card_freeFrames, card_frames] at hcard
  have hcount : freeCount (buddyFreeOrder st.buddy (sub64 addr st.buddy.hhdmOffset) order) =
      freeCount st.buddy := by
    unfold freeCount
    rw [hsame]
  have hpow := Nat.two_pow_pos order
  simp only at hcard
  omega

/-! ### A page that was merged -/

/-- Two pages are allocated and the first is freed twice, while its buddy is in use. -/
theorem double_free_while_buddy_used :
    ∃ st s', fourRun [.alloc 1, .alloc 1, .free ⟨0xffff800000100000, 1⟩] = some st ∧
      pmmFree st.buddy 0xffff800000100000 1 = some s' ∧
      (s'.orders = st.buddy.orders ↔ (⟨0x100000, 0⟩ : PmmBlock) ∈ st.buddy.orders 0) ∧
      (⟨0x100000, 0⟩ : PmmBlock) ∈ st.buddy.orders 0 := by
  let st := (fourRun [.alloc 1, .alloc 1, .free ⟨0xffff800000100000, 1⟩]).get (by decide)
  have ha : Aligned ⟨sub64 0xffff800000100000 st.buddy.hhdmOffset, 0⟩ :=
    ⟨by decide, by decide⟩
  have hfree : ∀ f ∈ frames ⟨sub64 0xffff800000100000 st.buddy.hhdmOffset, 0⟩,
      f ∈ freeFrames st.buddy := by
    decide
  obtain ⟨s', hcall, hiff⟩ := double_free_iff fourMap fourMap_disjoint
    (fourRun_reachable (some_get _).symm) (by decide) Nat.one_ne_zero (by decide) ha hfree
  exact ⟨st, s', (some_get _).symm, hcall, hiff, by decide⟩

/-- A page that is freed is merged with its buddies into the block of four pages. When it is
    freed again it is put on the free list of its own order as well. -/
theorem double_free_changes_lists :
    ∃ st₁ st₂ s₃, ∃ a : Alloc,
      (pmmSystem fourMap).Reachable st₁ ∧ st₁.live = [a] ∧ PmmStep st₁ (.free a) st₂ ∧
      (⟨0x100000, 2⟩ : PmmBlock) ∈ st₂.buddy.orders 2 ∧
      pmmFree st₂.buddy a.addr a.pages = some s₃ ∧ (⟨0x100000, 0⟩ : PmmBlock) ∈ s₃.orders 0 ∧
      s₃.orders ≠ st₂.buddy.orders := by
  let a : Alloc := ⟨0xffff800000100000, 1⟩
  let st₁ := (fourRun [.alloc 1]).get (by decide)
  let st₂ := (st₁.next (.free a)).get (by decide)
  let s₃ := (pmmFree st₂.buddy a.addr a.pages).get (by decide)
  refine ⟨st₁, st₂, s₃, a, fourRun_reachable (some_get _).symm, by decide,
    PmmSys.next_step (some_get _).symm, by decide, (some_get _).symm, by decide, ?_⟩
  intro hsame
  have hzero : s₃.orders 0 = st₂.buddy.orders 0 := by rw [hsame]
  exact absurd hzero (by decide)

/-! ## Section 3: The counter in one call -/

/-- The counter agrees with the free lists. -/
def Accurate (s : PmmBuddyState) : Prop := s.freePages = freeCount s

/-- What an allocation call does to the allocator: nothing, or it takes a block. -/
inductive AllocMove (s : PmmBuddyState) (pages : Nat) : PmmBuddyState → Prop where
  | stay : AllocMove s pages s
  | take {o order : Nat} {b : PmmBlock} :
      pagesToOrder pages = some (some order) → order ≤ o → o ≤ maxOrder → b ∈ s.orders o →
      AllocMove s pages (takeBlock s o order b)

theorem AllocCall.move (h : AllocCall s pages p s') : AllocMove s pages s' := by
  cases h with
  | null => exact .stay
  | take _ horder hle hmax hb => exact .take horder hle hmax hb

/-- An allocation keeps the counter right. -/
theorem AllocMove.accurate (h : Wf s) (hmove : AllocMove s pages s') (hacc : Accurate s) :
    Accurate s' := by
  cases hmove with
  | stay => exact hacc
  | @take o order b _ hle hmax hb =>
    have htaken := take_block order h hmax hle hb
    have hcard := congrArg Multiset.card htaken.frames
    rw [card_add, card_freeFrames, card_freeFrames, card_frames] at hcard
    have htotal := h.freeCount_le
    have hend := h.memEnd_le
    have hpages := h.totalPages_eq
    show sub64 s.freePages (1 <<< order) = _
    rw [Nat.one_shiftLeft, hacc, sub64_of_le _ (by rw [hcard]; exact Nat.le_add_right _ _), hcard]
    · exact Nat.add_sub_cancel_left _ _
    · simp only [pageSize] at hpages
      omega

/-- The block is merged with its buddy when it is freed. -/
def Merges (s : PmmBuddyState) (b : PmmBlock) : Prop :=
  b.order < maxOrder ∧
    (⟨b.phys ^^^ (pageSize <<< b.order), b.order⟩ : PmmBlock) ∈ s.orders b.order

theorem coalesce_freePages : ∀ (n : Nat) (s : PmmBuddyState) (phys order : Nat),
      (coalesce n s phys order).1.freePages = s.freePages := by
  intro n
  induction n with
  | zero => intro s phys order; rfl
  | succ n ih =>
    intro s phys order
    simp only [coalesce]
    repeat' split
    all_goals first | rfl | exact ih _ _ _

theorem coalesce_order_le : ∀ (n : Nat) (s : PmmBuddyState) (phys order : Nat),
      order ≤ (coalesce n s phys order).2.2 := by
  intro n
  induction n with
  | zero => intro s phys order; exact le_rfl
  | succ n ih =>
    intro s phys order
    simp only [coalesce]
    repeat' split
    all_goals first | exact le_rfl | exact Nat.le_of_succ_le (ih _ _ _)

/-- One round of the coalescing loop. -/
theorem coalesce_succ (h : Wf s) (n : Nat) (ho : b.order < maxOrder) :
    coalesce (n + 1) s b.phys b.order =
      if (⟨b.phys ^^^ (pageSize <<< b.order), b.order⟩ : PmmBlock) ∈ s.orders b.order then
        coalesce n (flDel s b.order ⟨b.phys ^^^ (pageSize <<< b.order), b.order⟩)
          (if b.phys ^^^ (pageSize <<< b.order) < b.phys then b.phys ^^^ (pageSize <<< b.order)
            else b.phys) (b.order + 1)
      else (s, b.phys, b.order) := by
  simp only [coalesce]
  by_cases hmem : (⟨b.phys ^^^ (pageSize <<< b.order), b.order⟩ : PmmBlock) ∈ s.orders b.order
  · -- the buddy is free, so it is in range and `_fl_find` finds it
    rw [if_pos hmem]
    obtain ⟨hlow, hhigh⟩ := h.phys_range (h.lists.mem (Nat.le_of_lt ho) hmem).1
    have hpos := Nat.two_pow_pos (pageShift + b.order)
    simp only at hlow hhigh
    obtain ⟨c, hc⟩ := isSome_iff_exists.mp ((h.flFind_isSome (Nat.le_of_lt ho)).mpr hmem)
    obtain ⟨hcmem, hphys⟩ := flFindLoop_sound hc
    have horder := h.lists.order_eq _ c hcmem
    have hceq : c = ⟨b.phys ^^^ (pageSize <<< b.order), b.order⟩ := by cases c; simp_all
    rw [if_neg (by omega), if_neg (by have := h.memStart_eq; omega), hc]
    simp only [hceq, ne_eq, not_true, if_false]
  rw [if_neg hmem]
  have hnone : flFind s b.order (b.phys ^^^ (pageSize <<< b.order)) = none := by
    rw [← h.flFind_isSome (Nat.le_of_lt ho)] at hmem
    simpa using hmem
  simp only [hnone, ite_self]

theorem coalesce_order_eq (h : Wf s) (ho : b.order ≤ maxOrder) :
    (coalesce (maxOrder - b.order) s b.phys b.order).2.2 = b.order ↔ ¬ Merges s b := by
  by_cases hlt : b.order < maxOrder
  · obtain ⟨n, hn⟩ : ∃ n, maxOrder - b.order = n + 1 := ⟨maxOrder - b.order - 1, by omega⟩
    rw [hn, coalesce_succ h n hlt]
    split
    · next hmem =>
      have hle := coalesce_order_le n (flDel s b.order ⟨b.phys ^^^ (pageSize <<< b.order), b.order⟩)
        (if b.phys ^^^ (pageSize <<< b.order) < b.phys then b.phys ^^^ (pageSize <<< b.order)
          else b.phys) (b.order + 1)
      refine iff_of_false (by omega) ?_
      exact fun hnot => hnot ⟨hlt, hmem⟩
    · next hmem => exact iff_of_true rfl fun hm => hmem hm.2
  · have hzero : maxOrder - b.order = 0 := by omega
    rw [hzero]
    exact iff_of_true rfl fun hm => hlt hm.1

/-- **The counter and `_buddy_free_order`.** If it was right before the call, and the
    freed pages are usable ones, then it is right after the call if and only if nothing was
    merged or all usable pages are free now. -/
theorem buddyFreeOrder_accurate (h : Wf s) (ha : b.Aligned) (hmin : freeMinPhys ≤ b.phys)
    (hacc : Accurate s) (hle : freeCount s + 2 ^ b.order ≤ s.usablePages)
    (hu : s.usablePages < 2 ^ 63) : Accurate (buddyFreeOrder s b.phys b.order) ↔
      (Merges s b → s.usablePages ≤ s.freePages + 2 ^ b.order) := by
  obtain ⟨_, _, hframes⟩ := buddyFreeOrder_spec h.lists ha hmin
  have hcard := congrArg Multiset.card hframes
  rw [card_add, card_freeFrames, card_freeFrames, card_frames] at hcard
  have hmerges := coalesce_order_eq h ha.1
  have hge := coalesce_order_le (maxOrder - b.order) s b.phys b.order
  have hpages := coalesce_freePages (maxOrder - b.order) s b.phys b.order
  have hm := coalesce_spec (maxOrder - b.order) s b.phys b.order (Nat.add_sub_of_le ha.1) h.lists ha
  have husable := hm.region.usablePages
  have hmax := hm.aligned.1
  have hfree : (buddyFreeOrder s b.phys b.order).freePages =
      (addFreePages (coalesce (maxOrder - b.order) s b.phys b.order).1
        (1 <<< (coalesce (maxOrder - b.order) s b.phys b.order).2.2)).freePages := by
    unfold buddyFreeOrder
    rw [if_neg (by omega)]
    rfl
  unfold Accurate at hacc ⊢
  rw [hcard, hfree]
  unfold addFreePages
  simp only [hpages, husable, Nat.one_shiftLeft]
  generalize (coalesce (maxOrder - b.order) s b.phys b.order).2.2 = o at hmerges hge hmax
  have hpos := Nat.two_pow_pos b.order
  have hpow : 2 ^ o ≤ 2 ^ 13 := Nat.pow_le_pow_right (by decide) hmax
  have hsum : u64 (s.freePages + 2 ^ o) = s.freePages + 2 ^ o := u64_of_lt (by omega)
  rw [hsum]
  by_cases heq : o = b.order
  · -- nothing was merged: the counter grows by the pages of the block
    rw [heq]
    refine iff_of_true ?_ fun hmer => absurd hmer (hmerges.mp heq)
    split <;> omega
  -- something was merged, and only the clamp can make the counter right
  have hmer : Merges s b := by
    by_contra hnot
    exact heq (hmerges.mpr hnot)
  have hlt : 2 ^ b.order < 2 ^ o := Nat.pow_lt_pow_right (by decide) (by omega)
  constructor
  · intro hright _
    split at hright <;> omega
  · intro hcond
    have := hcond hmer
    split <;> omega

/-! ## Section 4: The counters after `pmm_init` -/

/-- The pages that `pmm_init` counts for an entry: whole pages of its length, also where
    they do not begin at page boundaries. -/
def BootMmapEntry.usablePages (e : BootMmapEntry) : Nat :=
  if e.type = .usable then e.length / pageSize else 0

def BootMmapEntry.bytes (e : BootMmapEntry) : Multiset Nat :=
  if e.type = .usable then span e.base e.length else 0

theorem BootMmapEntry.card_frames_le (e : BootMmapEntry) :
    Multiset.card e.frames ≤ e.usablePages := by
  unfold BootMmapEntry.frames BootMmapEntry.usablePages
  split
  · simp only [card_span, pageSize]
    omega
  · simp

theorem BootMmapEntry.usablePages_le (e : BootMmapEntry) :
    e.usablePages ≤ Multiset.card e.bytes := by
  unfold BootMmapEntry.bytes BootMmapEntry.usablePages
  split
  · rw [card_span]
    exact Nat.div_le_self _ _
  · simp

theorem BootInfo.card_bytes_le (hd : bi.UsableDisjoint) :
    Multiset.card (bi.mmap.map BootMmapEntry.bytes).sum ≤ 2 ^ 52 := by
  have hmem : ∀ e : BootMmapEntry, ∀ n ∈ e.bytes, e.type = .usable ∧ e.Covers n := by
    intro e n hn
    unfold BootMmapEntry.bytes at hn
    split at hn
    · next hu => exact ⟨hu, mem_span.mp hn⟩
    · simp at hn
  have hnodup : ((bi.mmap.map BootMmapEntry.bytes).sum).Nodup := by
    refine entries_sum_nodup ?_ hmem bi.mmap hd
    intro e
    unfold BootMmapEntry.bytes
    split
    · exact nodup_span _ _
    · exact nodup_zero
  have hsub : ((bi.mmap.map BootMmapEntry.bytes).sum).toFinset ⊆ Finset.range (2 ^ 52) := by
    intro n hn
    obtain ⟨e, he, hne⟩ := mem_entries_sum.mp (Multiset.mem_toFinset.mp hn)
    obtain ⟨hu, hcov⟩ := hmem e n hne
    have hend := (bi.direct_map e he hu).1
    rw [Finset.mem_range]
    exact Nat.lt_of_lt_of_le hcov.2 hend
  have hcard := Finset.card_le_card hsub
  rw [toFinset_card_of_nodup hnodup, Finset.card_range] at hcard
  exact hcard

/-- The first loop of `pmm_init` adds up the pages of the usable entries. -/
theorem scanMmap_usable : ∀ (mmap : List BootMmapEntry) (m u : Nat),
      u + (mmap.map BootMmapEntry.usablePages).sum < 2 ^ 64 →
      (scanMmap mmap m u).2 = u + (mmap.map BootMmapEntry.usablePages).sum := by
  intro mmap
  induction mmap with
  | nil => intro m u _; rfl
  | cons e rest ih =>
    intro m u hlt
    rw [List.map_cons, List.sum_cons] at hlt ⊢
    unfold scanMmap
    by_cases hu : e.type = .usable
    · have hpages : e.usablePages = e.length / pageSize := if_pos hu
      rw [hpages] at hlt ⊢
      have hsum : u64 (u + e.length / pageSize) = u + e.length / pageSize := u64_of_lt (by omega)
      rw [if_pos hu, hsum, ih _ _ (by omega), Nat.add_assoc]
    have hpages : e.usablePages = 0 := if_neg hu
    rw [hpages, Nat.zero_add] at hlt ⊢
    rw [if_neg hu]
    exact ih _ _ hlt

theorem card_entries_sum (g : BootMmapEntry → Multiset Nat) : ∀ l : List BootMmapEntry,
      Multiset.card (l.map g).sum = (l.map fun e => Multiset.card (g e)).sum := by
  intro l
  induction l with
  | nil => rfl
  | cons e rest ih =>
    rw [List.map_cons, List.map_cons, List.sum_cons, List.sum_cons, card_add, ih]

/-- **`usable_pages`** bounds the number of free pages. -/
theorem pmmInit_usable (hd : bi.UsableDisjoint) :
    freeCount (pmmInit bi) ≤ (pmmInit bi).usablePages ∧ (pmmInit bi).usablePages ≤ 2 ^ 52 := by
  have hsum : (bi.mmap.map BootMmapEntry.usablePages).sum ≤ 2 ^ 52 := by
    refine Nat.le_trans (List.sum_le_sum fun e _ => e.usablePages_le) ?_
    rw [← card_entries_sum]
    exact bi.card_bytes_le hd
  have hscan := scanMmap_usable bi.mmap 0 0 (by omega)
  have husable : (pmmInit bi).usablePages = (scanMmap bi.mmap 0 0).2 := by
    have hbound : ∀ e ∈ bi.mmap, e.type = .usable → e.base + e.length ≤ 2 ^ 52 :=
      fun e he hu => (bi.direct_map e he hu).1
    have hlists : ListsOk ⟨bi.hhdmOffset, 0, alignUp (scanMmap bi.mmap 0 0).1 pageSize,
        alignUp (scanMmap bi.mmap 0 0).1 pageSize >>> pageShift, (scanMmap bi.mmap 0 0).2, 0,
        fun _ => []⟩ := by
      refine ⟨fun _ _ hb => absurd hb List.not_mem_nil, fun b hb => ?_⟩
      obtain ⟨_, c, hc, _⟩ := mem_freeBlocks.mp hb
      exact absurd hc List.not_mem_nil
    exact (initEntries_spec bi.mmap _ hlists hbound).2.1.usablePages
  rw [husable, hscan, Nat.zero_add, ← card_freeFrames, (pmmInit_spec bi hd).2.2, card_entries_sum]
  exact ⟨List.sum_le_sum fun e _ => e.card_frames_le, hsum⟩

/-- The counter while `pmm_init` runs. -/
def Counted (s : PmmBuddyState) : Prop := s.freePages = u64 (freeCount s)

theorem carveOrder_le (base rem : Nat) : ∀ o, carveOrder base rem o ≤ o := by
  intro o
  induction o with
  | zero => exact le_rfl
  | succ o ih =>
    simp only [carveOrder]
    split
    · exact le_rfl
    · exact Nat.le_succ_of_le ih

theorem freeCount_flPush (h : o ≤ maxOrder) :
    freeCount (flPush s o phys) = freeCount s + 2 ^ o := by
  rw [← card_freeFrames, freeFrames_flPush h, card_add, card_freeFrames,
    card_frames, Nat.add_comm]

theorem carve_counted {stop : Nat} (base : Nat) (s : PmmBuddyState) (h : Counted s) :
    Counted (carve base stop s) := by
  induction base, s using carve.induct stop with
  | case1 base s hlt rem order s' ih =>
    rw [carve, if_pos hlt]
    apply ih
    have hcount : freeCount { s' with freePages := u64 (s'.freePages + 1 <<< order) } =
        freeCount s + 2 ^ order := freeCount_flPush (carveOrder_le base rem maxOrder)
    unfold Counted at h ⊢
    rw [hcount]
    show u64 (s.freePages + 1 <<< order) = _
    rw [h, Nat.one_shiftLeft]
    exact Nat.mod_add_mod _ _ _
  | case2 base s hge =>
    rw [carve, if_neg hge]
    exact h

theorem initEntries_counted : ∀ (mmap : List BootMmapEntry) (s : PmmBuddyState), Counted s →
      Counted (mmap.foldl initEntry s) := by
  intro mmap
  induction mmap with
  | nil => intro s h; exact h
  | cons e rest ih =>
    intro s h
    apply ih
    simp only [initEntry]
    repeat' split
    all_goals first | exact h | exact carve_counted _ _ h

theorem pmmInit_accurate (hd : bi.UsableDisjoint) : Accurate (pmmInit bi) := by
  have hcounted : Counted (pmmInit bi) := by
    apply initEntries_counted
    simp [Counted, freeCount, u64]
  obtain ⟨hle, hmax⟩ := pmmInit_usable bi hd
  unfold Accurate
  rw [hcounted, u64_of_lt (by omega)]

/-! ## Section 5: The counter in a run -/

/-- The calls after which the counter is still right: a freed block does not merge with
    its buddy, or its pages are the last ones that were not free. -/
def KeepsCount (st : PmmSys) : PmmCall → Prop
  | .free a => Merges st.buddy (a.block st.buddy) →
      st.buddy.usablePages ≤ st.buddy.freePages + 2 ^ (a.block st.buddy).order
  | _ => True

instance (st : PmmSys) (c : PmmCall) : Decidable (KeepsCount st c) := by
  unfold KeepsCount Merges
  split <;> infer_instance

/-- One call keeps the counter right if and only if it meets the condition. -/
theorem step_accurate {bi : BootInfo} (hd : bi.UsableDisjoint) (hinv : SysInv bi st)
    (hacc : Accurate st.buddy) (hstep : PmmStep st c st') :
    Accurate st'.buddy ↔ KeepsCount st c := by
  rcases hstep.cases hinv.wf with ⟨pages, p, s', hcall, rfl, hne⟩ | ⟨a, s', rfl, ha, hcall, rfl⟩
  · refine iff_of_true (hcall.move.accurate hinv.wf hacc) ?_
    cases c with
    | free a => exact absurd rfl (hne a)
    | _ => trivial
  obtain ⟨b, hb⟩ := hinv.liveBlock hd ha
  have hmin := (hb.aligned.phys_range hinv.wf hb.range).1
  rw [hb.call] at hcall
  cases hcall
  -- the free pages and the pages of the block are among those that were free initially
  obtain ⟨hle, hmax⟩ := pmmInit_usable bi hd
  have hcard := congrArg Multiset.card (hinv.frames_erase ha)
  rw [card_add, card_add, card_freeFrames, card_freeFrames, hb.block,
    card_frames] at hcard
  have hregion := hinv.region.usablePages
  have hkeep := buddyFreeOrder_accurate hinv.wf hb.aligned hmin hacc (by omega) (by omega)
  show _ ↔ (Merges st.buddy (a.block st.buddy) → _)
  rw [hb.block]
  exact hkeep

/-- **`free_pages` is the number of free pages**, in every run whose calls meet the
    condition; and the first call that does not meet it makes it wrong. -/
theorem free_pages_accurate (bi : BootInfo) (hd : bi.UsableDisjoint) {st : PmmSys}
    (hr : ((pmmSystem bi).restrict KeepsCount).Reachable st) :
    st.buddy.freePages = ∑ o ∈ Finset.range (maxOrder + 1), 2 ^ o * (st.buddy.orders o).length ∧
      ∀ c st', PmmStep st c st' → (Accurate st'.buddy ↔ KeepsCount st c) := by
  have hacc : Accurate st.buddy := by
    induction hr with
    | init hi =>
      rw [show _ = _ from hi]
      exact pmmInit_accurate bi hd
    | step c hs hstep ih =>
      have hinv := sysInv_reachable hd hs.of_restrict
      exact (step_accurate hd hinv ih hstep.2).mpr hstep.1
  refine ⟨hacc, ?_⟩
  intro c st' hstep
  exact step_accurate hd (sysInv_reachable hd hr.of_restrict) hacc hstep

/-- Two pages are allocated and the first is freed, while its buddy is in use. -/
theorem free_pages_accurate_four :
    ∃ st, fourMap.UsableDisjoint ∧ ((pmmSystem fourMap).restrict KeepsCount).Reachable st ∧
      st.live = [⟨0xffff800000101000, 1⟩] ∧ st.buddy.freePages = 3 ∧
      st.buddy.freePages =
        ∑ o ∈ Finset.range (maxOrder + 1), 2 ^ o * (st.buddy.orders o).length := by
  let keptNext := fun (st : PmmSys) c => if KeepsCount st c then st.next c else none
  have hrun : (System.replay keptNext ⟨fourState, []⟩
      [.alloc 1, .alloc 1, .free ⟨0xffff800000100000, 1⟩]).map
      (fun st => (st.live, st.buddy.freePages)) = some ([⟨0xffff800000101000, 1⟩], 3) := by
    decide +kernel
  obtain ⟨st, hst, hend⟩ := map_eq_some_iff.mp hrun
  obtain ⟨hlive, hfree⟩ := Prod.ext_iff.mp hend
  have hinit : ((pmmSystem fourMap).restrict KeepsCount).Reachable ⟨fourState, []⟩ :=
    .init (by rw [← fourMap_init]; rfl)
  have hr := hinit.replay_restrict (fun _ _ _ => PmmSys.next_step) hst
  exact ⟨st, fourMap_disjoint, hr, hlive, hfree,
    (free_pages_accurate fourMap fourMap_disjoint hr).1⟩

/-- One page is freed while two others are still in use. It is merged with its buddy, two
    pages are free, and the counter says three. -/
theorem free_pages_counts_buddy_twice :
    ∃ st, (pmmSystem fourMap).Reachable st ∧ st.buddy.freePages = 3 ∧
      ∑ o ∈ Finset.range (maxOrder + 1), 2 ^ o * (st.buddy.orders o).length = 2 :=
  ⟨(fourRun mergedCalls).get (by decide), fourRun_reachable (some_get _).symm, by decide,
    by decide⟩

end Cervus.Pmm
