import Cervus.Framework.Frames
import Cervus.Memory.Pmm
import Mathlib.Algebra.BigOperators.Group.Finset.Piecewise
import Mathlib.Tactic.Abel

/-! # Well-formed allocator states

    The invariant of the page allocator and what each of its calls does to it.
    Frames are counted with multiplicity (`freeFrames`), so that the split
    loop, the coalescing loop and the two list operations are all equations
    between multisets:

    * `splitDown_spec`, `coalesce_spec`: the two loops lose no frame;
    * `AllocCall.result`, `pmmAlloc_call`, `pmmAllocZero_call`, `pmmAllocBelow_call`:
      an allocation takes one aligned block off the free lists or does nothing;
    * `pmmFree_spec`: freeing such a block puts its frames back.

    `Wf` is what every other module of the memory subsystem assumes of the
    allocator. -/

namespace Cervus.Pmm

open Cervus.Frames PmmBlock List Multiset

/-! ## Section 1: Blocks and frames -/

/-- The frames of a block, with multiplicity one each. -/
def PmmBlock.frames (b : PmmBlock) : Multiset Nat := span (b.phys / pageSize) (2 ^ b.order)

/-- A block aligned to its own size, of an order the allocator has. -/
def PmmBlock.Aligned (b : PmmBlock) : Prop :=
  b.order ≤ maxOrder ∧ 2 ^ (pageShift + b.order) ∣ b.phys

/-- The blocks of one free list, each under the order of that list. -/
def listBlocks (s : PmmBuddyState) (o : Nat) : Multiset PmmBlock :=
  ↑((s.orders o).map fun b => (⟨b.phys, o⟩ : PmmBlock))

/-- All free blocks. -/
def freeBlocks (s : PmmBuddyState) : Multiset PmmBlock :=
  ∑ o ∈ Finset.range (maxOrder + 1), listBlocks s o

variable {s s' : PmmBuddyState} {b : PmmBlock} {o phys f order pages p maxPhys : Nat}
  {l : List PmmBlock}

theorem mem_freeBlocks :
    b ∈ freeBlocks s ↔ b.order ≤ maxOrder ∧ ∃ c ∈ s.orders b.order, c.phys = b.phys := by
  unfold freeBlocks listBlocks
  rw [mem_sum]
  constructor
  · rintro ⟨o, ho, hb⟩
    simp only [mem_coe, List.mem_map] at hb
    obtain ⟨c, hc, rfl⟩ := hb
    simp only [Finset.mem_range] at ho
    exact ⟨Nat.lt_succ_iff.mp ho, c, hc, rfl⟩
  rintro ⟨ho, c, hc, hp⟩
  refine ⟨b.order, by simp; omega, ?_⟩
  simp only [mem_coe, List.mem_map]
  exact ⟨c, hc, by cases b; simp_all⟩

theorem freeBlocks_setOrder (h : o ≤ maxOrder) : freeBlocks (setOrder s o l) + listBlocks s o =
      freeBlocks s + ↑(l.map fun b => (⟨b.phys, o⟩ : PmmBlock)) := by
  have hmem : o ∈ Finset.range (maxOrder + 1) := by simp; omega
  unfold freeBlocks
  rw [← Finset.add_sum_erase _ _ hmem, ← Finset.add_sum_erase _ (listBlocks s) hmem]
  have hrest : ∑ x ∈ (Finset.range (maxOrder + 1)).erase o, listBlocks (setOrder s o l) x =
      ∑ x ∈ (Finset.range (maxOrder + 1)).erase o, listBlocks s x := by
    apply Finset.sum_congr rfl
    intro x hx
    simp [listBlocks, setOrder, Finset.ne_of_mem_erase hx]
  have hself : listBlocks (setOrder s o l) o = ↑(l.map fun b => (⟨b.phys, o⟩ : PmmBlock)) := by
    simp [listBlocks, setOrder]
  rw [hrest, hself]
  abel

/-- A push adds one block. -/
theorem freeBlocks_flPush (h : o ≤ maxOrder) :
    freeBlocks (flPush s o phys) = ⟨phys, o⟩ ::ₘ freeBlocks s := by
  have hset := freeBlocks_setOrder (s := s) (l := ⟨phys, o⟩ :: s.orders o) h
  have hcons : (↑(((⟨phys, o⟩ : PmmBlock) :: s.orders o).map fun b => (⟨b.phys, o⟩ : PmmBlock)) :
      Multiset PmmBlock) = ⟨phys, o⟩ ::ₘ listBlocks s o := by
    simp [listBlocks]
  rw [hcons, ← singleton_add, ← add_assoc] at hset
  rw [← singleton_add, flPush, add_comm _ (freeBlocks s)]
  exact add_right_cancel hset

/-- A delete removes one block. -/
theorem freeBlocks_flDel (h : o ≤ maxOrder) (hb : b ∈ s.orders o) :
    freeBlocks s = ⟨b.phys, o⟩ ::ₘ freeBlocks (flDel s o b) := by
  have hset := freeBlocks_setOrder (s := s) (l := (s.orders o).erase b) h
  have hperm : listBlocks s o = ⟨b.phys, o⟩ ::ₘ
      ↑(((s.orders o).erase b).map fun b => (⟨b.phys, o⟩ : PmmBlock)) := by
    have := (perm_cons_erase hb).map fun b => (⟨b.phys, o⟩ : PmmBlock)
    rw [listBlocks, coe_eq_coe.mpr this]
    rfl
  rw [hperm, ← singleton_add, ← add_assoc] at hset
  rw [← singleton_add, flDel, add_comm _ (freeBlocks _)]
  exact (add_right_cancel hset).symm

/-! ## Section 2: Well-formed states -/

/-- The frames on the free lists. -/
def freeFrames (s : PmmBuddyState) : Multiset Nat := (freeBlocks s).bind PmmBlock.frames

/-- Every block of a list carries the order of the list and is aligned to it. -/
structure ListsOk (s : PmmBuddyState) : Prop where
  order_eq : ∀ o, ∀ b ∈ s.orders o, b.order = o
  aligned  : ∀ b ∈ freeBlocks s, b.Aligned

/-- Two states that manage the same memory. -/
structure SameRegion (s s' : PmmBuddyState) : Prop where
  hhdmOffset  : s'.hhdmOffset = s.hhdmOffset
  memStart    : s'.memStart = s.memStart
  memEnd      : s'.memEnd = s.memEnd
  totalPages  : s'.totalPages = s.totalPages
  usablePages : s'.usablePages = s.usablePages

theorem SameRegion.refl (s : PmmBuddyState) : SameRegion s s := ⟨rfl, rfl, rfl, rfl, rfl⟩

theorem setOrder_sameRegion (s : PmmBuddyState) (o : Nat) (l : List PmmBlock) :
    SameRegion s (setOrder s o l) := ⟨rfl, rfl, rfl, rfl, rfl⟩

theorem SameRegion.trans {s'' : PmmBuddyState} (h : SameRegion s s') (h' : SameRegion s' s'') :
    SameRegion s s'' :=
  ⟨h'.1.trans h.1, h'.2.trans h.2, h'.3.trans h.3, h'.4.trans h.4, h'.5.trans h.5⟩

/-- **Well-formed allocator state.** No frame is on the free lists twice, the
    free frames lie between 1 MiB and the end of memory, and the direct map
    reaches all of memory. -/
structure Wf (s : PmmBuddyState) : Prop where
  lists          : ListsOk s
  nodup          : (freeFrames s).Nodup
  range          : ∀ f ∈ freeFrames s, freeMinPhys / pageSize ≤ f ∧ f < s.memEnd / pageSize
  memStart_eq    : s.memStart = 0
  memEnd_aligned : pageSize ∣ s.memEnd
  memEnd_le      : s.memEnd ≤ 2 ^ 52
  direct_map     : s.hhdmOffset + s.memEnd ≤ 2 ^ 64
  totalPages_eq  : s.totalPages = s.memEnd / pageSize

/-! ### Frames of one block -/

theorem pageSize_shiftLeft (o : Nat) : pageSize <<< o = 2 ^ (pageShift + o) := by
  rw [Nat.shiftLeft_eq, Nat.pow_add]
  rfl

theorem two_pow_pageShift_add (o : Nat) : 2 ^ (pageShift + o) = pageSize * 2 ^ o := by
  rw [Nat.pow_add]
  rfl

theorem pageSize_pos : 0 < pageSize := by decide

theorem PmmBlock.Aligned.page (h : b.Aligned) : pageSize ∣ b.phys := by
  have h2 := h.2
  rw [two_pow_pageShift_add] at h2
  exact Dvd.dvd.trans (Nat.dvd_mul_right _ _) h2

/-- An aligned block starts at its first frame. -/
theorem PmmBlock.Aligned.phys_eq (h : b.Aligned) :
    b.phys = b.phys / pageSize * pageSize := (Nat.div_mul_cancel h.page).symm

theorem PmmBlock.mem_frames :
    f ∈ b.frames ↔ b.phys / pageSize ≤ f ∧ f < b.phys / pageSize + 2 ^ b.order := by
  simp [frames]

theorem PmmBlock.first_mem_frames (b : PmmBlock) : b.phys / pageSize ∈ b.frames := by
  rw [mem_frames]
  have := Nat.two_pow_pos b.order
  omega

theorem PmmBlock.last_mem_frames (b : PmmBlock) :
    b.phys / pageSize + (2 ^ b.order - 1) ∈ b.frames := by
  rw [mem_frames]
  have := Nat.two_pow_pos b.order
  omega

/-- A block is its two halves. -/
theorem frames_split (phys o : Nat) : frames ⟨phys, o + 1⟩ =
      frames ⟨phys, o⟩ + frames ⟨phys + 2 ^ (pageShift + o), o⟩ := by
  have hdiv : (phys + 2 ^ (pageShift + o)) / pageSize = phys / pageSize + 2 ^ o := by
    rw [two_pow_pageShift_add, Nat.add_mul_div_left _ _ pageSize_pos]
  simp only [frames, hdiv]
  exact span_two_pow_succ _ _

theorem PmmBlock.Aligned.half (h : Aligned ⟨phys, o + 1⟩) :
    Aligned ⟨phys, o⟩ ∧ Aligned ⟨phys + 2 ^ (pageShift + o), o⟩ := by
  have hle : o ≤ maxOrder := Nat.le_of_succ_le h.1
  have hdvd : 2 ^ (pageShift + o) ∣ phys := by
    have h2 := h.2
    exact Dvd.dvd.trans (pow_dvd_pow 2 (by simp)) h2
  exact ⟨⟨hle, hdvd⟩, hle, Nat.dvd_add hdvd (Nat.dvd_refl _)⟩

theorem mem_freeFrames : f ∈ freeFrames s ↔ ∃ b ∈ freeBlocks s, f ∈ b.frames := by
  simp [freeFrames, mem_bind]

/-- The frames of a block are those of its addresses in the direct map. -/
theorem PmmBlock.Aligned.mem_frames_iff {base hhdm : Nat} (habove : hhdm ≤ base)
    (ha : Aligned ⟨base - hhdm, order⟩) {a : Nat} :
    (base ≤ a ∧ a < base + pageSize * 2 ^ order) ↔
      hhdm ≤ a ∧ (a - hhdm) / pageSize ∈ frames ⟨base - hhdm, order⟩ := by
  obtain ⟨q, hq⟩ := ha.page
  have hbase : base - hhdm = pageSize * q := hq
  rw [mem_frames]
  simp only [hbase, Nat.mul_div_cancel_left _ pageSize_pos]
  unfold pageSize at *
  omega

/-! ### What one list operation does -/

theorem ListsOk.mem (h : ListsOk s) (ho : o ≤ maxOrder) (hb : b ∈ s.orders o) :
    b ∈ freeBlocks s ∧ b.Aligned := by
  have horder := h.order_eq o b hb
  have hmem : b ∈ freeBlocks s := by
    rw [mem_freeBlocks, horder]
    exact ⟨ho, b, hb, rfl⟩
  exact ⟨hmem, h.aligned b hmem⟩

theorem flPush_lists (h : ListsOk s) (ha : Aligned ⟨phys, o⟩) :
    ListsOk (flPush s o phys) := by
  constructor
  · intro o' b hb
    by_cases ho : o' = o
    · subst ho
      simp only [flPush, setOrder, Function.update_self, List.mem_cons] at hb
      rcases hb with rfl | hb
      · rfl
      · exact h.order_eq _ b hb
    · simp only [flPush, setOrder, Function.update_of_ne ho] at hb
      exact h.order_eq o' b hb
  intro b hb
  rw [freeBlocks_flPush ha.1, Multiset.mem_cons] at hb
  rcases hb with rfl | hb
  · exact ha
  · exact h.aligned b hb

theorem flDel_lists (h : ListsOk s) (ho : o ≤ maxOrder) (hb : b ∈ s.orders o) :
    ListsOk (flDel s o b) := by
  constructor
  · intro o' c hc
    by_cases hoo : o' = o
    · subst hoo
      simp only [flDel, setOrder, Function.update_self] at hc
      exact h.order_eq _ c (List.mem_of_mem_erase hc)
    · simp only [flDel, setOrder, Function.update_of_ne hoo] at hc
      exact h.order_eq o' c hc
  intro c hc
  apply h.aligned c
  rw [freeBlocks_flDel ho hb]
  exact Multiset.mem_cons_of_mem hc

theorem freeFrames_flPush (h : o ≤ maxOrder) :
    freeFrames (flPush s o phys) = frames ⟨phys, o⟩ + freeFrames s := by
  rw [freeFrames, freeBlocks_flPush h, cons_bind]
  rfl

theorem freeFrames_flDel (h : o ≤ maxOrder) (hb : b ∈ s.orders o) :
    freeFrames s = frames ⟨b.phys, o⟩ + freeFrames (flDel s o b) := by
  rw [freeFrames, freeBlocks_flDel h hb, cons_bind]
  rfl

/-! ### The pointer checks never fire -/

/-- The address range of an aligned block whose frames are in range. -/
theorem PmmBlock.Aligned.phys_range (ha : b.Aligned) (h : Wf s)
    (hrange : ∀ f ∈ b.frames, freeMinPhys / pageSize ≤ f ∧ f < s.memEnd / pageSize) :
    freeMinPhys ≤ b.phys ∧ b.phys + 2 ^ (pageShift + b.order) ≤ s.memEnd := by
  have hfst := hrange _ b.first_mem_frames
  have hlst := hrange _ b.last_mem_frames
  obtain ⟨q, hq⟩ := h.memEnd_aligned
  rw [hq, Nat.mul_div_cancel_left _ pageSize_pos] at hlst
  rw [ha.phys_eq, two_pow_pageShift_add, hq]
  constructor
  · have : freeMinPhys / pageSize * pageSize = freeMinPhys := by decide
    rw [← this]
    exact Nat.mul_le_mul_right _ hfst.1
  · rw [Nat.mul_comm _ pageSize, ← Nat.mul_add]
    apply Nat.mul_le_mul_left
    omega

theorem Wf.phys_range (h : Wf s) (hb : b ∈ freeBlocks s) :
    freeMinPhys ≤ b.phys ∧ b.phys + 2 ^ (pageShift + b.order) ≤ s.memEnd :=
  (h.lists.aligned b hb).phys_range h fun f hf => h.range f (mem_freeFrames.mpr ⟨b, hb, hf⟩)

theorem Wf.blockPtrValid (h : Wf s) (ho : o ≤ maxOrder) (hb : b ∈ s.orders o) :
    blockPtrValid s b.phys = true := by
  obtain ⟨hmem, ha⟩ := h.lists.mem ho hb
  obtain ⟨_, hhi⟩ := h.phys_range hmem
  have hpos := Nat.two_pow_pos (pageShift + b.order)
  have hdm := h.direct_map
  have hp : physToBlock s b.phys = b.phys + s.hhdmOffset := by
    exact u64_of_lt (by omega)
  have hmask : b.phys &&& 0xFFF = 0 := by
    have := Nat.and_two_pow_sub_one_eq_mod b.phys 12
    rw [this]
    exact Nat.mod_eq_zero_of_dvd ha.page
  unfold Pmm.blockPtrValid
  simp only [hp, Nat.add_sub_cancel, h.memStart_eq, hmask]
  rw [if_neg (by omega), if_neg (by omega)]
  rfl

theorem Wf.nextPtrValid (h : Wf s) {rest : List PmmBlock} (ho : o ≤ maxOrder)
    (hl : s.orders o = b :: rest) : nextPtrValid s rest = true := by
  cases rest with
  | nil => rfl
  | cons c rest =>
    have hc : c ∈ s.orders o := by simp [hl]
    exact h.blockPtrValid ho hc

/-- What `_fl_find` returns is on the list and has the address asked for. -/
theorem flFindLoop_sound : ∀ {limit : Nat} {l : List PmmBlock} {b : PmmBlock},
      flFindLoop s phys limit l = some b → b ∈ l ∧ b.phys = phys := by
  intro limit l
  induction l generalizing limit with
  | nil => intro b h; simp [flFindLoop] at h
  | cons c rest ih =>
    intro b h
    unfold flFindLoop at h
    split at h
    · cases h
    split at h
    · next hc => cases h; exact ⟨by simp, hc⟩
    split at h
    · cases h
    cases limit with
    | zero => cases h
    | succ limit =>
      obtain ⟨hm, hp⟩ := ih h
      exact ⟨List.mem_cons_of_mem _ hm, hp⟩

/-! ## Section 3: Splitting and coalescing keep the frames -/

theorem splitDown_same (phys order : Nat) : ∀ (found : Nat) (s : PmmBuddyState),
    SameRegion s (splitDown phys order found s) ∧
      (splitDown phys order found s).freePages = s.freePages := by
  intro found
  induction found with
  | zero => intro s; exact ⟨SameRegion.refl s, rfl⟩
  | succ found ih =>
    intro s
    unfold splitDown
    split
    · obtain ⟨hr, hfree⟩ := ih (flPush s found (u64 (phys + pageSize <<< found)))
      exact ⟨(setOrder_sameRegion s _ _).trans hr, hfree⟩
    · exact ⟨SameRegion.refl s, rfl⟩

/-- The upper half of a block that is split. -/
theorem upper_half {found : Nat} (h : phys + 2 ^ (pageShift + (found + 1)) ≤ 2 ^ 64) :
    u64 (phys + pageSize <<< found) = phys + 2 ^ (pageShift + found) ∧
      phys + 2 ^ (pageShift + found) ≤ 2 ^ 64 := by
  have hpos := Nat.two_pow_pos (pageShift + found)
  rw [← Nat.add_assoc, Nat.pow_succ] at h
  rw [pageSize_shiftLeft]
  exact ⟨u64_of_lt (by omega), by omega⟩

/-- **Split loop.** Taking `2 ^ order` pages out of a block of order `found`
    returns the rest of the block to the free lists. -/
theorem splitDown_spec : ∀ (found : Nat) (s : PmmBuddyState), order ≤ found → ListsOk s →
      Aligned ⟨phys, found⟩ → phys + 2 ^ (pageShift + found) ≤ 2 ^ 64 →
      ListsOk (splitDown phys order found s) ∧ Aligned ⟨phys, order⟩ ∧
      frames ⟨phys, order⟩ + freeFrames (splitDown phys order found s) =
        frames ⟨phys, found⟩ + freeFrames s := by
  intro found
  induction found with
  | zero =>
    intro s hle hl ha _
    have : order = 0 := by omega
    subst this
    exact ⟨hl, ha, rfl⟩
  | succ found ih =>
    intro s hle hl ha hb
    unfold splitDown
    split
    · next hgt =>
      have hhalf := Aligned.half ha
      obtain ⟨hu, hb'⟩ := upper_half hb
      rw [hu]
      obtain ⟨hl', ha', hf'⟩ := ih (flPush s found (phys + 2 ^ (pageShift + found)))
        (by omega) (flPush_lists hl hhalf.2) hhalf.1 hb'
      refine ⟨hl', ha', ?_⟩
      rw [hf', freeFrames_flPush hhalf.2.1, frames_split]
      abel
    next hgt =>
    have : order = found + 1 := by omega
    subst this
    exact ⟨hl, ha, rfl⟩

/-- Two buddies make the block one order up. -/
theorem frames_merge (ha : Aligned ⟨phys, o⟩) (ho : o < maxOrder) :
    let buddy := phys ^^^ (pageSize <<< o)
    let low := if buddy < phys then buddy else phys
    Aligned ⟨low, o + 1⟩ ∧
    frames ⟨low, o + 1⟩ = frames ⟨phys, o⟩ + frames ⟨buddy, o⟩ := by
  simp only [pageSize_shiftLeft]
  rcases buddy_cases ha.2 with ⟨hdvd, hx⟩ | ⟨hdvd, hle, hx⟩
  · rw [hx, if_neg (by simp)]
    have hal : Aligned ⟨phys, o + 1⟩ := ⟨ho, hdvd⟩
    exact ⟨hal, frames_split _ _⟩
  simp only at hle hx hdvd
  rw [hx, if_pos (by omega)]
  have hal : Aligned ⟨phys - 2 ^ (pageShift + o), o + 1⟩ := ⟨ho, hdvd⟩
  refine ⟨hal, ?_⟩
  rw [frames_split, Nat.sub_add_cancel hle]
  abel

/-- What is left of freeing the block `⟨phys, order⟩` after some merging: the
    state and the block in `r` together hold the frames of the old state and
    the old block. -/
structure Merged (s : PmmBuddyState) (phys order : Nat) (r : PmmBuddyState × Nat × Nat) :
    Prop where
  lists   : ListsOk r.1
  region  : SameRegion s r.1
  aligned : PmmBlock.Aligned ⟨r.2.1, r.2.2⟩
  frames  : PmmBlock.frames ⟨r.2.1, r.2.2⟩ + freeFrames r.1 =
    PmmBlock.frames ⟨phys, order⟩ + freeFrames s

/-- **Coalescing loop.** Merging a block with its free buddies moves frames
    from the free lists into the block and loses none. -/
theorem coalesce_spec :
    ∀ (n : Nat) (s : PmmBuddyState) (phys order : Nat), order + n = maxOrder → ListsOk s →
      Aligned ⟨phys, order⟩ → Merged s phys order (coalesce n s phys order) := by
  intro n
  induction n with
  | zero =>
    intro s phys order _ hl ha
    exact ⟨hl, SameRegion.refl s, ha, rfl⟩
  | succ n ih =>
    intro s phys order hn hl ha
    have hstop : Merged s phys order (s, phys, order) := ⟨hl, SameRegion.refl s, ha, rfl⟩
    simp only [coalesce]
    split
    · exact hstop
    split
    · exact hstop
    split
    · exact hstop
    next b hb =>
    split
    · exact hstop
    have ho : order < maxOrder := by omega
    obtain ⟨hmem, hphys⟩ := flFindLoop_sound hb
    obtain ⟨hal, hfr⟩ := frames_merge ha ho
    have hrec := ih (flDel s order b) _ (order + 1) (by omega)
      (flDel_lists hl (by omega) hmem) hal
    refine ⟨hrec.lists, (setOrder_sameRegion s _ _).trans hrec.region, hrec.aligned, ?_⟩
    rw [hrec.frames, hfr, freeFrames_flDel (by omega) hmem, hphys]
    abel

/-! ## Section 4: Specifications of the calls -/

/-- Fewer free frames in the same region keep a state well-formed. -/
theorem Wf.of_region (h : Wf s) (hl : ListsOk s') (hr : SameRegion s s')
    (hnodup : (freeFrames s').Nodup)
    (hrange : ∀ f ∈ freeFrames s', freeMinPhys / pageSize ≤ f ∧ f < s.memEnd / pageSize) :
    Wf s' where
  lists := hl
  nodup := hnodup
  range := by rw [hr.memEnd]; exact hrange
  memStart_eq := by rw [hr.memStart]; exact h.memStart_eq
  memEnd_aligned := by rw [hr.memEnd]; exact h.memEnd_aligned
  memEnd_le := by rw [hr.memEnd]; exact h.memEnd_le
  direct_map := by rw [hr.memEnd, hr.hhdmOffset]; exact h.direct_map
  totalPages_eq := by rw [hr.memEnd, hr.totalPages]; exact h.totalPages_eq

theorem Wf.of_le (h : Wf s) (hl : ListsOk s') (hr : SameRegion s s')
    (hf : freeFrames s' ≤ freeFrames s) : Wf s' :=
  h.of_region hl hr (nodup_of_le hf h.nodup) fun f hmem =>
    h.range f (mem_of_le hf hmem)

/-- The block `b` has left the free lists between `s` and `s'`. -/
structure Taken (s : PmmBuddyState) (b : PmmBlock) (s' : PmmBuddyState) : Prop where
  wf      : Wf s'
  region  : SameRegion s s'
  aligned : b.Aligned
  frames  : freeFrames s = b.frames + freeFrames s'

/-- Where a taken block lies. -/
theorem Taken.phys_range (h : Taken s b s') (hs : Wf s) :
    ∀ f ∈ b.frames, freeMinPhys / pageSize ≤ f ∧ f < s.memEnd / pageSize := by
  intro f hf
  apply hs.range
  rw [h.frames]
  exact mem_add.mpr (.inl hf)

/-- The state after a block of order `o` was taken off its list and split. -/
def takeBlock (s : PmmBuddyState) (o order : Nat) (b : PmmBlock) : PmmBuddyState :=
  { splitDown b.phys order o (flDel s o b) with freePages := sub64 s.freePages (1 <<< order) }

theorem takeBlock_eq (s : PmmBuddyState) (o order : Nat) (b : PmmBlock) :
    { splitDown b.phys order o (flDel s o b) with
      freePages := sub64 (splitDown b.phys order o (flDel s o b)).freePages (1 <<< order) } =
      takeBlock s o order b := by
  rw [(splitDown_same ..).2]
  rfl

/-- Unlinking a block and splitting it down takes its lowest `2 ^ order` pages. -/
theorem take_block (order : Nat) (h : Wf s) (ho : o ≤ maxOrder) (hle : order ≤ o)
    (hb : b ∈ s.orders o) : Taken s ⟨b.phys, order⟩ (takeBlock s o order b) := by
  obtain ⟨hmem, ha⟩ := h.lists.mem ho hb
  have horder := h.lists.order_eq o b hb
  obtain ⟨_, hhi⟩ := h.phys_range hmem
  have hend := h.memEnd_le
  rw [horder] at hhi
  have hao : Aligned ⟨b.phys, o⟩ := by
    rw [← horder]
    exact ha
  obtain ⟨hl', ha', hf'⟩ := splitDown_spec o (flDel s o b) hle (flDel_lists h.lists ho hb) hao
    (by omega)
  have hsplit : SameRegion s (splitDown b.phys order o (flDel s o b)) :=
    (setOrder_sameRegion s _ _).trans (splitDown_same b.phys order o _).1
  have hreg : SameRegion s (takeBlock s o order b) :=
    ⟨hsplit.1, hsplit.2, hsplit.3, hsplit.4, hsplit.5⟩
  have hframes : freeFrames s = frames ⟨b.phys, order⟩ + freeFrames (takeBlock s o order b) := by
    refine Eq.trans ?_ hf'.symm
    rw [← freeFrames_flDel ho hb]
  exact ⟨h.of_le ⟨hl'.1, hl'.2⟩ hreg (by rw [hframes]; exact Multiset.le_add_left _ _), hreg, ha',
    hframes⟩

theorem firstNonEmpty_some (h : firstNonEmpty s order = some o) :
    order ≤ o ∧ o ≤ maxOrder ∧ s.orders o ≠ [] := by
  have hmem := List.mem_of_find?_eq_some h
  have hp := List.find?_some h
  rw [mem_range'_1] at hmem
  refine ⟨hmem.1, by omega, ?_⟩
  intro hnil
  simp [hnil] at hp

theorem firstNonEmpty_none (h : firstNonEmpty s order = none) :
    ∀ o, order ≤ o → o ≤ maxOrder → s.orders o = [] := by
  intro o hle hmax
  unfold firstNonEmpty at h
  rw [List.find?_eq_none] at h
  have := h o (by rw [mem_range'_1]; omega)
  simpa using this

/-- **`_buddy_alloc_order`**: either every list of a sufficient order is empty
    and nothing happens, or a block of the order leaves the free lists. -/
theorem buddyAllocOrder_spec (order : Nat) (h : Wf s) :
    (buddyAllocOrder s order = (0, s) ∧ ∀ o, order ≤ o → o ≤ maxOrder → s.orders o = []) ∨
    ∃ o b, buddyAllocOrder s order = (b.phys, takeBlock s o order b) ∧ order ≤ o ∧ o ≤ maxOrder ∧
      b ∈ s.orders o := by
  unfold buddyAllocOrder
  cases hfound : firstNonEmpty s order with
  | none => exact .inl ⟨rfl, firstNonEmpty_none hfound⟩
  | some found =>
    right
    obtain ⟨hle, hmax, hne⟩ := firstNonEmpty_some hfound
    cases hlist : s.orders found with
    | nil => exact absurd hlist hne
    | cons b rest =>
      have hb : b ∈ s.orders found := by simp [hlist]
      have hvalid := h.nextPtrValid hmax hlist
      simp only [hlist, hvalid, Bool.not_true, Bool.false_eq_true, if_false]
      exact ⟨found, b, by rw [takeBlock_eq], hle, hmax, hb⟩

/-- What an allocation call that returned `p` has done: nothing, and then it
    returned `NULL`, or it took a block of the order of `pages`. -/
inductive AllocResult (s : PmmBuddyState) (pages : Nat) : Nat → PmmBuddyState → Prop where
  | null : AllocResult s pages 0 s
  | block {s' : PmmBuddyState} (phys order : Nat) :
      pages ≠ 0 → pagesToOrder pages = some (some order) → freeMinPhys ≤ phys →
      Taken s ⟨phys, order⟩ s' → AllocResult s pages (phys + s.hhdmOffset) s'

theorem Taken.physToBlock_eq (h : Taken s b s') (hs : Wf s) :
    physToBlock s' b.phys = b.phys + s.hhdmOffset := by
  have hlast := h.phys_range hs _ b.first_mem_frames
  obtain ⟨q, hq⟩ := hs.memEnd_aligned
  have hdm := hs.direct_map
  rw [hq, Nat.mul_div_cancel_left _ pageSize_pos] at hlast
  have hlt : b.phys < s.memEnd := by
    rw [h.aligned.phys_eq, hq, Nat.mul_comm]
    exact Nat.mul_lt_mul_of_pos_left hlast.2 pageSize_pos
  unfold physToBlock
  rw [h.region.hhdmOffset]
  exact u64_of_lt (by omega)

/-- The same by the block that was unlinked and split. -/
inductive AllocCall (s : PmmBuddyState) (pages : Nat) : Nat → PmmBuddyState → Prop where
  | null : AllocCall s pages 0 s
  | take {o order : Nat} {b : PmmBlock} :
      pages ≠ 0 → pagesToOrder pages = some (some order) → order ≤ o → o ≤ maxOrder →
      b ∈ s.orders o → AllocCall s pages (b.phys + s.hhdmOffset) (takeBlock s o order b)

theorem AllocCall.result (h : Wf s) (hcall : AllocCall s pages p s') :
    AllocResult s pages p s' := by
  cases hcall with
  | null => exact .null
  | take hpages horder hle hmax hb =>
    have hmin := (h.phys_range (h.lists.mem hmax hb).1).1
    exact .block _ _ hpages horder hmin (take_block _ h hmax hle hb)

/-- **`pmm_alloc`** -/
theorem pmmAlloc_call (h : Wf s) (hcall : pmmAlloc s pages = some (p, s')) :
    AllocCall s pages p s' := by
  unfold pmmAlloc at hcall
  split at hcall
  · cases hcall; exact .null
  next hpages =>
  split at hcall
  · cases hcall
  · cases hcall; exact .null
  next order horder =>
  rcases buddyAllocOrder_spec order h with ⟨heq, _⟩ | ⟨o, b, heq, hle, hmax, hb⟩
  · simp only [heq] at hcall
    cases hcall
    exact .null
  have hmin := (h.phys_range (h.lists.mem hmax hb).1).1
  have hne : b.phys ≠ 0 := by
    have : 0 < freeMinPhys := by decide
    omega
  have hptr := (take_block order h hmax hle hb).physToBlock_eq h
  simp only [heq, hne, ne_eq, not_false_eq_true, true_and, if_neg (Nat.not_lt.mpr hmin),
    if_true] at hcall
  cases hcall
  rw [hptr]
  exact .take hpages horder hle hmax hb

/-- **`pmm_alloc_zero`** -/
theorem pmmAllocZero_call (h : Wf s) (hcall : pmmAllocZero s pages = some (p, s')) :
    AllocCall s pages p s' := by
  unfold pmmAllocZero at hcall
  split at hcall
  · cases hcall; exact .null
  split at hcall
  · cases hcall
  · cases hcall; exact .null
  · exact pmmAlloc_call h hcall

theorem freeFrames_eq_zero (h : ∀ o, o ≤ maxOrder → s.orders o = []) : freeFrames s = 0 := by
  rw [eq_zero_iff_forall_notMem]
  intro f hf
  obtain ⟨b, hb, _⟩ := mem_freeFrames.mp hf
  obtain ⟨ho, c, hc, _⟩ := mem_freeBlocks.mp hb
  rw [h b.order ho] at hc
  cases hc

/-- **One page.** `pmm_alloc_zero(1)` fails only when no frame is free. -/
theorem pmmAllocZero_one (h : Wf s) : (pmmAllocZero s 1 = some (0, s) ∧ freeFrames s = 0) ∨
    ∃ phys s', pmmAllocZero s 1 = some (phys + s.hhdmOffset, s') ∧ freeMinPhys ≤ phys ∧
      Taken s ⟨phys, 0⟩ s' := by
  have horder : pagesToOrder 1 = some (some 0) := by decide
  have hcall : pmmAllocZero s 1 = pmmAlloc s 1 := by simp [pmmAllocZero, horder]
  rw [hcall]
  rcases buddyAllocOrder_spec 0 h with ⟨heq, hempty⟩ | ⟨o, b, heq, hle, hmax, hb⟩
  · left
    refine ⟨?_, freeFrames_eq_zero fun o ho => hempty o (Nat.zero_le _) ho⟩
    simp [pmmAlloc, horder, heq]
  right
  have hmin := (h.phys_range (h.lists.mem hmax hb).1).1
  have hne : b.phys ≠ 0 := by
    have : 0 < freeMinPhys := by decide
    omega
  have htaken := take_block 0 h hmax hle hb
  have hptr := htaken.physToBlock_eq h
  refine ⟨b.phys, _, ?_, hmin, htaken⟩
  simp only [pmmAlloc, horder, heq]
  simp [hne, Nat.not_lt.mpr hmin, hptr]

theorem findBelow_some {span : Nat} (h : findBelow s order span maxPhys = some (o, b)) :
    order ≤ o ∧ o ≤ maxOrder ∧ b ∈ s.orders o ∧ u64 (b.phys + span) ≤ maxPhys := by
  obtain ⟨l1, o', l2, hl, hfind, _⟩ := findSome?_eq_some_iff.mp h
  rw [Option.map_eq_some_iff] at hfind
  obtain ⟨c, hc, heq⟩ := hfind
  cases heq
  have hmem : o ∈ range' order (maxOrder + 1 - order) := by rw [hl]; simp
  have htest := List.find?_some hc
  simp only [Bool.and_eq_true, Bool.not_eq_true', decide_eq_false_iff_not] at htest
  rw [mem_range'_1] at hmem
  exact ⟨hmem.1, by omega, List.mem_of_find?_eq_some hc, Nat.not_lt.mp htest.2⟩

/-- **`pmm_alloc_below`** -/
theorem pmmAllocBelow_call (h : Wf s) (hcall : pmmAllocBelow s pages maxPhys = some (p, s')) :
    AllocCall s pages p s' := by
  unfold pmmAllocBelow at hcall
  split at hcall
  · cases hcall; exact .null
  next hpages =>
  split at hcall
  · cases hcall
  · cases hcall; exact .null
  next order horder =>
  split at hcall
  · cases hcall; exact .null
  next o b hfind =>
  obtain ⟨hle, hmax, hb, -⟩ := findBelow_some hfind
  have hptr := (take_block order h hmax hle hb).physToBlock_eq h
  simp only [takeBlock_eq] at hcall hptr
  cases hcall
  rw [hptr]
  exact .take hpages horder hle hmax hb

/-- More free frames, all of them in range and new, keep a state well-formed. -/
theorem Wf.of_add (h : Wf s) (hl : ListsOk s') (hr : SameRegion s s')
    (hf : freeFrames s' = b.frames + freeFrames s)
    (hrange : ∀ f ∈ b.frames, freeMinPhys / pageSize ≤ f ∧ f < s.memEnd / pageSize)
    (hdisj : Disjoint b.frames (freeFrames s)) : Wf s' := by
  refine h.of_region hl hr ?_ ?_
  · rw [hf]
    exact nodup_add.mpr ⟨nodup_span _ _, h.nodup, hdisj⟩
  intro f hmem
  rw [hf, mem_add] at hmem
  rcases hmem with hmem | hmem
  · exact hrange f hmem
  · exact h.range f hmem

/-- **`_buddy_free_order`** on an aligned block above 1 MiB. -/
theorem buddyFreeOrder_spec (hl : ListsOk s) (ha : Aligned ⟨phys, order⟩)
    (hmin : freeMinPhys ≤ phys) :
    ListsOk (buddyFreeOrder s phys order) ∧ SameRegion s (buddyFreeOrder s phys order) ∧
      freeFrames (buddyFreeOrder s phys order) = frames ⟨phys, order⟩ + freeFrames s := by
  have hm := coalesce_spec (maxOrder - order) s phys order (Nat.add_sub_of_le ha.1) hl ha
  unfold buddyFreeOrder
  rw [if_neg (by omega)]
  generalize coalesce (maxOrder - order) s phys order = r at hm
  obtain ⟨t, phys', order'⟩ := r
  have hpush := flPush_lists hm.lists hm.aligned
  have hreg := hm.region
  refine ⟨⟨hpush.1, hpush.2⟩, ⟨hreg.1, hreg.2, hreg.3, hreg.4, hreg.5⟩, ?_⟩
  show freeFrames (flPush t order' phys') = _
  rw [freeFrames_flPush hm.aligned.1]
  exact hm.frames

/-- **`pmm_free`** on an aligned block of memory. -/
theorem pmmFree_eq (h : Wf s) (hpages : pages ≠ 0) (horder : pagesToOrder pages = some (some order))
    (ha : Aligned ⟨phys, order⟩)
    (hrange : ∀ f ∈ frames ⟨phys, order⟩, freeMinPhys / pageSize ≤ f ∧ f < s.memEnd / pageSize) :
    pmmFree s (phys + s.hhdmOffset) pages =
      some (if (flFind s order phys).isSome then s else buddyFreeOrder s phys order) := by
  obtain ⟨hmin, hhi⟩ := ha.phys_range h hrange
  have hpos := Nat.two_pow_pos (pageShift + order)
  have hmin' : 0 < freeMinPhys := by decide
  have hdm := h.direct_map
  simp only at hmin hhi
  have hsub : sub64 (phys + s.hhdmOffset) s.hhdmOffset = phys := by
    rw [sub64_of_le (by omega) (by omega)]
    omega
  unfold pmmFree
  rw [if_neg (by omega)]
  simp only [hsub, h.memStart_eq, horder]
  rw [if_neg (by omega), if_neg (by omega)]
  split <;> rfl

/-- No block that shares no frame with the free lists is found on them. -/
theorem flFind_of_disjoint (h : ListsOk s) (ho : order ≤ maxOrder)
    (hdisj : Disjoint (frames ⟨phys, order⟩) (freeFrames s)) :
    flFind s order phys = none := by
  by_contra hne
  obtain ⟨c, hc⟩ := Option.ne_none_iff_exists'.mp hne
  obtain ⟨hmem, hphys⟩ := flFindLoop_sound hc
  obtain ⟨hcb, _⟩ := h.mem ho hmem
  have horder' := h.order_eq order c hmem
  have hceq : c = ⟨phys, order⟩ := by cases c; simp_all
  have hfree : phys / pageSize ∈ freeFrames s :=
    mem_freeFrames.mpr ⟨c, hcb, by rw [hceq]; exact first_mem_frames _⟩
  exact (Multiset.disjoint_left.mp hdisj (first_mem_frames _)) hfree

/-- **`pmm_free`** on an aligned block outside the free lists: the frames of
    the block join the free frames. -/
theorem pmmFree_spec (h : Wf s) (hpages : pages ≠ 0)
    (horder : pagesToOrder pages = some (some order)) (ha : Aligned ⟨phys, order⟩)
    (hrange : ∀ f ∈ frames ⟨phys, order⟩, freeMinPhys / pageSize ≤ f ∧ f < s.memEnd / pageSize)
    (hdisj : Disjoint (frames ⟨phys, order⟩) (freeFrames s)) :
    ∃ s', pmmFree s (phys + s.hhdmOffset) pages = some s' ∧ Wf s' ∧ SameRegion s s' ∧
      freeFrames s' = frames ⟨phys, order⟩ + freeFrames s := by
  have hmin := (ha.phys_range h hrange).1
  have hfind := flFind_of_disjoint h.lists ha.1 hdisj
  obtain ⟨hl', hr', hf'⟩ := buddyFreeOrder_spec h.lists ha hmin
  refine ⟨buddyFreeOrder s phys order, ?_, h.of_add hl' hr' hf' hrange hdisj, hr', hf'⟩
  rw [pmmFree_eq h hpages horder ha hrange, hfind]
  rfl

end Cervus.Pmm
