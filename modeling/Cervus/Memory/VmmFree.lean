import Cervus.Memory.VmmFork
import Cervus.Memory.VmmUnmap

/-! # Freeing a clone

    `vmm_free_pagemap` walks the user half of a pagemap and calls `pmm_free` for what it
    finds; `pagemapBlocks` is the list of these calls. On a pagemap that
    `vmm_clone_pagemap` has made they are the blocks that the clone took from the
    allocator, each of them once (`clone_then_free_neutral`).

    Both functions go through the same four levels, with conditions of their own. The
    loops of the clone have one specification (`Took`): the blocks that a free would find
    below the entries done so far, with the frames still free, are the frames that were
    free before. -/

namespace Cervus.Vmm

open Cervus.Pmm Cervus.Frames Option Multiset

-- the 256 indices are only known by `mem_userHalf` and `nodup_userHalf`
attribute [local irreducible] userHalf kernelHalf

/-! ## Section 1: The blocks of a pagemap -/

/-- The block of an entry of a page table: address and number of pages. -/
def pageBlocks (e : Pte) : List (Nat × Nat) :=
  if hasFlag e vmmPresent && !hasFlag e vmmShared then [(physOf e, 1)] else []

/-- The blocks below the entries `is` of a table, in the order of the loops. -/
def tableBlocks (m : Nat → Fin 512 → Pte) : Nat → Nat → List (Fin 512) → List (Nat × Nat)
  | 0, n, is => is.flatMap fun i => pageBlocks (m n i)
  | level + 1, n, is => is.flatMap fun i =>
      if !hasFlag (m n i) vmmPresent then []
      else if level = 0 ∧ hasFlag (m n i) vmmPse then [(hugePhysOf (m n i), 512)]
      else tableBlocks m level (physOf (m n i)) (List.finRange 512) ++ [(physOf (m n i), 1)]

/-- What `vmm_free_pagemap` gives back. -/
def pagemapBlocks (m : Nat → Fin 512 → Pte) (map pml4 : Nat) : List (Nat × Nat) :=
  tableBlocks m 3 pml4 userHalf ++ [(pml4, 1), (map, 1)]

/-- The frames of some blocks. -/
def blockFrames : List (Nat × Nat) → Multiset Nat
  | [] => 0
  | b :: bs => span (b.1 / pageSize) b.2 + blockFrames bs

@[simp] theorem blockFrames_nil : blockFrames [] = 0 := rfl

@[simp] theorem blockFrames_append (bs cs : List (Nat × Nat)) :
    blockFrames (bs ++ cs) = blockFrames bs + blockFrames cs := by
  induction bs with
  | nil => simp
  | cons b bs ih => rw [List.cons_append, blockFrames, blockFrames, ih, add_assoc]

variable {b : Nat × Nat} {bs : List (Nat × Nat)} {m : Nat → Fin 512 → Pte}
  {st st' st0 st₁ : VmState} {phys pages level n page n' src k : Nat}
  {body : VmState → Fin 512 → Option VmState} {s0 : PmmBuddyState} {is : List (Fin 512)}
  {i : Fin 512} {e : Pte}

theorem span_le_blockFrames (h : b ∈ bs) : span (b.1 / pageSize) b.2 ≤ blockFrames bs := by
  induction bs with
  | nil => cases h
  | cons c bs ih =>
    rcases List.mem_cons.mp h with rfl | h
    · exact Multiset.le_add_right _ _
    · exact (ih h).trans (Multiset.le_add_left _ _)

theorem tableBlocks_cons (m : Nat → Fin 512 → Pte) (level n : Nat) (i : Fin 512)
    (is : List (Fin 512)) :
    tableBlocks m level n (i :: is) = tableBlocks m level n [i] ++ tableBlocks m level n is := by
  cases level <;> simp [tableBlocks]

/-- The blocks depend on the entries of the table and on the blocks themselves: the
    tables below are among them. -/
theorem tableBlocks_congr {m' : Nat → Fin 512 → Pte} (level : Nat) :
    ∀ (n : Nat) (is : List (Fin 512)), (∀ i ∈ is, m' n i = m n i) →
      (∀ b ∈ tableBlocks m level n is, m' b.1 = m b.1) →
      tableBlocks m' level n is = tableBlocks m level n is := by
  induction level with
  | zero =>
    intro n is hentry _
    exact List.flatMap_congr fun i hi => by rw [hentry i hi]
  | succ level ih =>
    intro n is hentry hbelow
    simp only [tableBlocks] at hbelow ⊢
    apply List.flatMap_congr
    intro i hi
    rw [hentry i hi]
    by_cases habsent : (!hasFlag (m n i) vmmPresent) = true
    · rw [if_pos habsent, if_pos habsent]
    by_cases hhuge : level = 0 ∧ hasFlag (m n i) vmmPse = true
    · rw [if_pos hhuge, if_pos hhuge]
    have hblock : ∀ b ∈ tableBlocks m level (physOf (m n i)) (List.finRange 512) ++
        [(physOf (m n i), 1)], m' b.1 = m b.1 := by
      intro b hb
      apply hbelow b
      rw [List.mem_flatMap]
      exact ⟨i, hi, by rw [if_neg habsent, if_neg hhuge]; exact hb⟩
    -- the table below is the last block of the entry
    have htable : m' (physOf (m n i)) = m (physOf (m n i)) :=
      hblock (physOf (m n i), 1) (List.mem_append_right _ (List.mem_singleton_self _))
    rw [ih (physOf (m n i)) (List.finRange 512) (fun j _ => by rw [htable])
      fun b hb => hblock b (List.mem_append_left _ hb)]

/-! ## Section 2: Giving the blocks back -/

theorem VmState.freeFrom_mem (h : st.freeFrom phys pages = some st') : st'.mem = st.mem := by
  unfold VmState.freeFrom at h
  split at h
  · obtain ⟨pmm, _, rfl⟩ := map_eq_some_iff.mp h
    rfl
  · cases h
    rfl

/-- The loops over the blocks of an entry, one block after another. -/
def freeBlocksFrom (st : VmState) (bs : List (Nat × Nat)) : Option VmState :=
  bs.foldlM (fun st b => st.freeFrom b.1 b.2) st

theorem freeBlocksFrom_append (st : VmState) (bs cs : List (Nat × Nat)) :
    freeBlocksFrom st (bs ++ cs) = (freeBlocksFrom st bs).bind fun st => freeBlocksFrom st cs := by
  unfold freeBlocksFrom
  rw [List.foldlM_append]
  rfl

theorem freeBlocksFrom_single (st : VmState) (b : Nat × Nat) :
    freeBlocksFrom st [b] = st.freeFrom b.1 b.2 := by
  simp [freeBlocksFrom]

theorem freeBlocksFrom_mem :
    ∀ {st st' : VmState}, freeBlocksFrom st bs = some st' → st'.mem = st.mem := by
  induction bs with
  | nil =>
    intro st st' h
    cases h
    rfl
  | cons b bs ih =>
    intro st st' h
    obtain ⟨st₁, hfirst, hrest⟩ := bind_eq_some_iff.mp h
    rw [ih hrest, VmState.freeFrom_mem hfirst]

/-- A loop over entries gives back the blocks of the entries, when its body does. -/
theorem freeLoop_eq
    (hbody : ∀ st i, st.mem = m → body st i = freeBlocksFrom st (tableBlocks m level n [i])) :
    ∀ is st, st.mem = m → is.foldlM body st = freeBlocksFrom st (tableBlocks m level n is) := by
  intro is
  induction is with
  | nil =>
    intro st _
    have hnil : tableBlocks m level n [] = [] := by cases level <;> rfl
    rw [hnil]
    rfl
  | cons i is ih =>
    intro st hm
    rw [List.foldlM_cons, tableBlocks_cons, freeBlocksFrom_append, hbody st i hm]
    cases hfirst : freeBlocksFrom st (tableBlocks m level n [i]) with
    | none => rfl
    | some st₁ => exact ih st₁ ((freeBlocksFrom_mem hfirst).trans hm)

/-- **The loops of `vmm_free_pagemap`** give back the blocks below the entries. -/
theorem freeTable_eq (level : Nat) :
    ∀ n is st, st.mem = m →
      freeTable level n st is = freeBlocksFrom st (tableBlocks m level n is) := by
  induction level with
  | zero =>
    intro n is st hm
    refine freeLoop_eq ?_ is st hm
    intro st i hm
    simp only [freePageEntry, tableBlocks, hm, List.flatMap_cons, List.flatMap_nil, List.append_nil,
      pageBlocks]
    cases hasFlag (m n i) vmmPresent with
    | false => rfl
    | true =>
      cases hasFlag (m n i) vmmShared with
      | true => rfl
      | false => exact (freeBlocksFrom_single st (physOf (m n i), 1)).symm
  | succ level ih =>
    intro n is st hm
    refine freeLoop_eq ?_ is st hm
    intro st i hm
    simp only [tableBlocks, hm, List.flatMap_cons, List.flatMap_nil, List.append_nil]
    by_cases habsent : (!hasFlag (m n i) vmmPresent) = true
    · rw [if_pos habsent, if_pos habsent]
      rfl
    rw [if_neg habsent, if_neg habsent]
    by_cases hhuge : level = 0 ∧ hasFlag (m n i) vmmPse = true
    · rw [if_pos hhuge, if_pos hhuge]
      exact (freeBlocksFrom_single st (hugePhysOf (m n i), 512)).symm
    rw [if_neg hhuge, if_neg hhuge, ih _ _ st hm, freeBlocksFrom_append]
    cases hbelow : freeBlocksFrom st
        (tableBlocks m level (physOf (m n i)) (List.finRange 512)) with
    | none => rfl
    | some st₁ =>
      have hm1 : st₁.mem = m := (freeBlocksFrom_mem hbelow).trans hm
      simp only [hm1, bind_some]
      exact (freeBlocksFrom_single st₁ (physOf (m n i), 1)).symm

/-- A block that the allocator handed out: aligned to its size, from 1 MiB on. -/
def IsBlock (b : Nat × Nat) : Prop :=
  ∃ order, pagesToOrder b.2 = some (some order) ∧ b.2 = 2 ^ order ∧
    PmmBlock.Aligned ⟨b.1, order⟩ ∧ freeMinPhys ≤ b.1

theorem isBlock_page (ha : pageSize ∣ page) (hmin : freeMinPhys ≤ page) : IsBlock (page, 1) :=
  ⟨0, show pagesToOrder 1 = some (some 0) by decide, rfl, ⟨Nat.zero_le _, ha⟩, hmin⟩

/-- `pmm_free` of one block, when the block and the free frames are frames that were free
    in another state of the same memory. -/
theorem VmState.free_block {F : Multiset Nat} (hs0 : Wf s0) (hwf : Wf st.pmm)
    (hregion : SameRegion s0 st.pmm) (hb : IsBlock b)
    (hframes : span (b.1 / pageSize) b.2 + F + freeFrames st.pmm = freeFrames s0) :
    ∃ st', st.free b.1 b.2 = some st' ∧ Wf st'.pmm ∧ SameRegion s0 st'.pmm ∧
      F + freeFrames st'.pmm = freeFrames s0 := by
  obtain ⟨order, horder, hpages, haligned, hmin⟩ := hb
  have hspan : PmmBlock.frames ⟨b.1, order⟩ = span (b.1 / pageSize) b.2 := by
    rw [hpages]
    rfl
  have hmem : ∀ f ∈ PmmBlock.frames ⟨b.1, order⟩, f ∈ freeFrames s0 := by
    intro f hf
    rw [← hframes, add_assoc]
    rw [hspan] at hf
    exact mem_add.mpr (.inl hf)
  have hrange : ∀ f ∈ PmmBlock.frames ⟨b.1, order⟩,
      freeMinPhys / pageSize ≤ f ∧ f < st.pmm.memEnd / pageSize := by
    intro f hf
    rw [hregion.memEnd]
    exact hs0.range f (hmem f hf)
  have hdisj : Disjoint (PmmBlock.frames ⟨b.1, order⟩) (freeFrames st.pmm) := by
    have hnodup := hs0.nodup
    rw [← hframes, add_assoc, nodup_add] at hnodup
    rw [hspan, disjoint_left]
    intro f hf hfree
    exact disjoint_left.mp hnodup.2.2 hf (mem_add.mpr (.inr hfree))
  have hpos : b.2 ≠ 0 := by
    rw [hpages]
    exact (Nat.two_pow_pos order).ne'
  obtain ⟨s', hcall, hwf', hregion', hfree⟩ := pmmFree_spec hwf hpos horder haligned hrange hdisj
  have hptr : pmmPhysToVirt st.pmm b.1 = b.1 + st.pmm.hhdmOffset := by
    have hhi := (haligned.phys_range hwf hrange).2
    have hdm := hwf.direct_map
    have hsize := Nat.two_pow_pos (pageShift + order)
    simp only at hhi
    exact u64_of_lt (by omega)
  refine ⟨{ st with pmm := s' }, ?_, hwf', hregion.trans hregion', ?_⟩
  · unfold VmState.free
    rw [hptr, hcall]
    rfl
  · show F + freeFrames s' = _
    rw [hfree, hspan, ← add_assoc, add_comm F, hframes]

/-- **All blocks.** Each `pmm_free` takes its block, and nothing is left out. -/
theorem free_blocks (hs0 : Wf s0) :
    ∀ {st : VmState}, Wf st.pmm → SameRegion s0 st.pmm → (∀ b ∈ bs, IsBlock b) →
      blockFrames bs + freeFrames st.pmm = freeFrames s0 →
      ∃ st', bs.foldlM (fun st b => st.free b.1 b.2) st = some st' ∧
        freeBlocksFrom st bs = some st' ∧ freeFrames st'.pmm = freeFrames s0 := by
  induction bs with
  | nil =>
    intro st _ _ _ hframes
    exact ⟨st, rfl, rfl, by simpa using hframes⟩
  | cons b bs ih =>
    intro st hwf hregion hblocks hframes
    have hb := hblocks b (by simp)
    obtain ⟨st₁, hcall, hwf1, hregion1, hframes1⟩ := VmState.free_block hs0 hwf hregion hb hframes
    obtain ⟨st2, hrest, hrest', hframes2⟩ := ih hwf1 hregion1
      (fun c hc => hblocks c (.tail _ hc)) hframes1
    have hfrom : st.freeFrom b.1 b.2 = some st₁ := by
      obtain ⟨_, _, _, _, hmin⟩ := hb
      unfold VmState.freeFrom
      rw [if_pos hmin, hcall]
    refine ⟨st2, ?_, ?_, hframes2⟩
    · rw [List.foldlM_cons, hcall]
      exact hrest
    · rw [← List.singleton_append, freeBlocksFrom_append, freeBlocksFrom_single, hfrom]
      exact hrest'

/-! ## Section 3: What the loops of a clone take -/

/-- The source of a clone: the tables that the entries `is` lead to are in use, and large
    pages are in page directories only. -/
def SourceTable (st : VmState) : Nat → Nat → List (Fin 512) → Prop
  | 0, n, _ => ¬ Free st n
  | level + 1, n, is => ¬ Free st n ∧ ∀ i ∈ is, hasFlag (st.mem n i) vmmPresent = true →
      (level = 0 ∧ hasFlag (st.mem n i) vmmPse = true) ∨
      (hasFlag (st.mem n i) vmmPse = false ∧
        SourceTable st level (physOf (st.mem n i)) (List.finRange 512))

theorem SourceTable.not_free (h : SourceTable st level n is) : ¬ Free st n := by
  cases level with
  | zero => exact h
  | succ level => exact h.1

theorem SourceTable.sub {js : List (Fin 512)} (h : SourceTable st level n is)
    (hsub : ∀ j ∈ js, j ∈ is) : SourceTable st level n js := by
  cases level with
  | zero => exact h
  | succ level => exact ⟨h.1, fun j hj => h.2 j (hsub j hj)⟩

/-- What the loop over the entries `is` of a table has taken for the table `n'` between
    `st` and `st'`, in a clone that began in `st₀`. -/
structure Took (st₀ : VmState) (level n' : Nat) (is : List (Fin 512)) (st st' : VmState) :
    Prop where
  during : During st₀ st'
  region : SameRegion st.pmm st'.pmm
  frames : blockFrames (tableBlocks st'.mem level n' is) + freeFrames st'.pmm = freeFrames st.pmm
  blocks : ∀ b ∈ tableBlocks st'.mem level n' is, IsBlock b
  frame  : ∀ k, k ≠ n' → ¬ Free st k → st'.mem k = st.mem k
  rest   : ∀ i, i ∉ is → st'.mem n' i = st.mem n' i

theorem Took.free_le (h : Took st0 level n' is st st') :
    freeFrames st'.pmm ≤ freeFrames st.pmm := by
  rw [← h.frames]
  exact Multiset.le_add_left _ _

/-- The blocks were free before and are in use afterwards. -/
theorem Took.taken (h : Took st0 level n' is st st') (hwf : Wf st.pmm)
    (hb : b ∈ tableBlocks st'.mem level n' is) : Free st b.1 ∧ ¬ Free st' b.1 := by
  obtain ⟨order, _, hpages, _⟩ := h.blocks b hb
  have hfirst : b.1 / pageSize ∈ span (b.1 / pageSize) b.2 := by
    rw [mem_span, hpages]
    have := Nat.two_pow_pos order
    omega
  have hmem := mem_of_le (span_le_blockFrames hb) hfirst
  have hnodup := hwf.nodup
  rw [← h.frames, nodup_add] at hnodup
  refine ⟨?_, disjoint_left.mp hnodup.2.2 hmem⟩
  unfold Free
  rw [← h.frames]
  exact mem_add.mpr (.inl hmem)

theorem tableBlocks_nil (m : Nat → Fin 512 → Pte) (level n : Nat) :
    tableBlocks m level n [] = [] := by
  cases level <;> rfl

theorem Took.nil (h : During st0 st) : Took st0 level n' [] st st where
  during := h
  region := SameRegion.refl _
  frames := by rw [tableBlocks_nil, blockFrames_nil, zero_add]
  blocks := by
    rw [tableBlocks_nil]
    exact nofun
  frame _ _ _ := rfl
  rest _ _ := rfl

/-- One entry after another. -/
theorem Took.cons {st2 : VmState} (h1 : Took st0 level n' [i] st st₁)
    (h2 : Took st0 level n' is st₁ st2) (hi : i ∉ is) (hwf : Wf st.pmm) (hn' : ¬ Free st n') :
    Took st0 level n' (i :: is) st st2 := by
  -- the blocks of the first entry are in use and stay as they are
  have hfirst : tableBlocks st2.mem level n' [i] = tableBlocks st₁.mem level n' [i] := by
    apply tableBlocks_congr
    · intro j hj
      obtain rfl : j = i := by simpa using hj
      exact h2.rest j hi
    · intro b hb
      obtain ⟨hfree, howned⟩ := h1.taken hwf hb
      exact h2.frame b.1 (fun heq => hn' (heq ▸ hfree)) howned
  refine ⟨h2.during, h1.region.trans h2.region, ?_, ?_, ?_, ?_⟩
  · rw [tableBlocks_cons, hfirst, blockFrames_append, add_assoc, h2.frames, h1.frames]
  · intro b hb
    rw [tableBlocks_cons, hfirst] at hb
    rcases List.mem_append.mp hb with hb | hb
    · exact h1.blocks b hb
    · exact h2.blocks b hb
  · intro k hk hfree
    rw [h2.frame k hk fun h => hfree (h.of_le h1.free_le), h1.frame k hk hfree]
  · intro j hj
    rw [List.mem_cons, not_or] at hj
    rw [h2.rest j hj.2, h1.rest j (by simpa using hj.1)]

/-- A loop over entries, from what its body takes for each. -/
theorem took_foldlM
    (hbody : ∀ st i st', During st0 st → SourceTable st0 level n [i] → Target st0 st n' [i] →
      body st i = some st' → Took st0 level n' [i] st st') :
    ∀ is st st', is.Nodup → During st0 st → SourceTable st0 level n is → Target st0 st n' is →
      is.foldlM body st = some st' → Took st0 level n' is st st' := by
  intro is
  induction is with
  | nil =>
    intro st st' _ hd _ _ hcall
    cases hcall
    exact .nil hd
  | cons i is ih =>
    intro st st' hnodup hd hs ht hcall
    obtain ⟨hi, hnodup⟩ := List.nodup_cons.mp hnodup
    obtain ⟨st₁, hfirst, hrest⟩ := bind_eq_some_iff.mp hcall
    have hone : SourceTable st0 level n [i] := hs.sub fun j hj => by simp_all
    have h1 := hbody st i st₁ hd hone ht.head hfirst
    have h2 := ih st₁ st' hnodup h1.during (hs.sub fun j hj => List.mem_cons_of_mem _ hj)
      (ht.tail hi h1.free_le h1.rest) hrest
    exact h1.cons h2 hi hd.wf ht.owned

/-! ## Section 4: Entries -/

/-- An entry of the clone that stays clear, or is the one of a shared page. -/
theorem Took.empty (hd : During st0 st') (hpmm : st'.pmm = st.pmm)
    (hblocks : tableBlocks st'.mem level n' [i] = []) (hframe : ∀ k, k ≠ n' → st'.mem k = st.mem k)
    (hrest : ∀ j, j ≠ i → st'.mem n' j = st.mem n' j) : Took st0 level n' [i] st st' where
  during := hd
  region := by
    rw [hpmm]
    exact SameRegion.refl _
  frames := by rw [hblocks, blockFrames_nil, zero_add, hpmm]
  blocks := by
    rw [hblocks]
    exact nofun
  frame k hk _ := hframe k hk
  rest j hj := hrest j (by simpa using hj)

theorem tableBlocks_absent (level : Nat) (h : m n i = 0#64) : tableBlocks m level n [i] = [] := by
  cases level <;> simp [tableBlocks, pageBlocks, h, hasFlag_zero]

theorem Took.skip (hd : During st0 st) (ht : Target st0 st n' [i]) : Took st0 level n' [i] st st :=
  .empty hd rfl (tableBlocks_absent level (ht.clear i (by simp))) (fun _ _ => rfl) fun _ _ => rfl

theorem allocPage_region (h : Wf st.pmm) (hcall : allocPage st = some (page, st')) :
    SameRegion st.pmm st'.pmm := by
  unfold allocPage at hcall
  rcases pmmAllocZero_one h with ⟨heq, _⟩ | ⟨phys, s', heq, _, htaken⟩
  · rw [heq] at hcall
    simp only [if_true, some.injEq, Prod.mk.injEq] at hcall
    rw [← hcall.2]
    exact SameRegion.refl _
  rw [heq] at hcall
  simp only at hcall
  split at hcall
  · cases hcall
    exact htaken.region
  · cases hcall
    exact htaken.region

/-- The block of a copied page. -/
theorem pageBlocks_copied (ha : pageSize ∣ page) (hlt : page < 2 ^ 52)
    (hpresent : hasFlag e vmmPresent = true) (hshared : hasFlag e vmmShared = false) :
    pageBlocks (BitVec.ofNat 64 page ||| (e &&& flagBits)) = [(page, 1)] := by
  have hs : hasFlag (BitVec.ofNat 64 page ||| (e &&& flagBits)) vmmShared = false := by
    rw [hasFlag_link ha hlt (by decide)]
    unfold hasFlag at hshared ⊢
    rwa [BitVec.and_assoc, show flagBits &&& vmmShared = vmmShared by decide]
  simp [pageBlocks, hs, copiedEntry_present ha hlt hpresent, copiedEntry_phys e ha hlt]

/-- **The body of the innermost loop.** -/
theorem clonePageEntry_took (hd : During st0 st) (ht : Target st0 st n' [i])
    (hcall : clonePageEntry n n' st i = some st') : Took st0 0 n' [i] st st' := by
  unfold clonePageEntry at hcall
  generalize st.mem n i = e at hcall
  cases hpresent : hasFlag e vmmPresent with
  | false =>
    simp only [hpresent, Bool.not_false, if_true] at hcall
    cases hcall
    exact .skip hd ht
  | true =>
    cases hshared : hasFlag e vmmShared with
    | true =>
      simp only [hpresent, hshared, Bool.not_true, Bool.false_eq_true, if_false, if_true] at hcall
      cases hcall
      refine .empty (hd.write ht.taken) rfl ?_ (fun _ hk => VmState.write_other hk)
        fun _ hj => VmState.write_index hj
      simp [tableBlocks, pageBlocks, VmState.write_self, hshared]
    | false =>
      simp only [hpresent, hshared, Bool.not_true, Bool.false_eq_true, if_false] at hcall
      by_cases hlow : physOf e < freeMinPhys
      · rw [if_pos hlow] at hcall
        cases hcall
        exact .skip hd ht
      rw [if_neg hlow] at hcall
      rcases allocPage_cases hd.wf with ⟨heq, _⟩ | ⟨page, st₁, heq, hne, htaken⟩
      · -- no page is free, and the entry stays clear
        simp only [heq, if_true] at hcall
        cases hcall
        exact .skip hd ht
      simp only [heq, hne, if_false] at hcall
      have hblocks := pageBlocks_copied htaken.aligned htaken.high hpresent hshared
      generalize BitVec.ofNat 64 page ||| (e &&& flagBits) = e' at hcall hblocks
      cases hcall
      have hpage : page ≠ n' := fun h => ht.owned (h ▸ htaken.free)
      have hfree0 : Free st0 page := htaken.free.of_le hd.free_le
      generalize hst : (st₁.fillPage page (st₁.mem (physOf e))).write n' i e' = st2
      have hentry : tableBlocks st2.mem 0 n' [i] = [(page, 1)] := by
        rw [← hst]
        simp only [tableBlocks, List.flatMap_cons, List.flatMap_nil, List.append_nil,
          VmState.write_self, hblocks]
      have hpmm : st2.pmm = st₁.pmm := by rw [← hst]; rfl
      refine ⟨?_, ?_, ?_, ?_, ?_, ?_⟩
      · rw [← hst]
        exact ((hd.taken htaken).fillPage hfree0).write ht.taken
      · rw [hpmm]
        exact allocPage_region hd.wf heq
      · rw [hentry, hpmm, htaken.frames]
        simp [blockFrames, span]
      · intro b hb
        rw [hentry, List.mem_singleton] at hb
        rw [hb]
        exact isBlock_page htaken.aligned htaken.low
      · intro k hk hfree
        have hkp : k ≠ page := fun h => hfree (h ▸ htaken.free)
        rw [← hst, VmState.write_other hk, VmState.fillPage_other hkp, htaken.mem_other hkp]
      · intro j hj
        rw [← hst, VmState.write_index (by simpa using hj), VmState.fillPage_other hpage.symm,
          htaken.mem_other hpage.symm]

/-! ### Large pages -/

theorem copyPages_pmm (st : VmState) (src dst : Nat) : (copyPages st src dst).pmm = st.pmm := by
  have hloop : ∀ (ks : List Nat) (st : VmState), (ks.foldl (fun st k =>
      st.fillPage (dst + k * pageSize) (st.mem (src + k * pageSize))) st).pmm = st.pmm := by
    intro ks
    induction ks with
    | nil => exact fun _ => rfl
    | cons k ks ih => exact fun st => ih _
  apply hloop

theorem copyPages_other {dst : Nat} (h : ∀ k < 512, n ≠ dst + k * pageSize) :
    (copyPages st src dst).mem n = st.mem n := by
  have hloop : ∀ (ks : List Nat) (st : VmState), (∀ k ∈ ks, n ≠ dst + k * pageSize) →
      (ks.foldl (fun st k =>
        st.fillPage (dst + k * pageSize) (st.mem (src + k * pageSize))) st).mem n = st.mem n := by
    intro ks
    induction ks with
    | nil => exact fun _ _ => rfl
    | cons k ks ih =>
      intro st hall
      rw [List.foldl_cons, ih _ fun j hj => hall j (.tail _ hj)]
      exact VmState.fillPage_other (hall k (by simp))
  apply hloop
  intro k hk
  exact h k (List.mem_range.mp hk)

/-- The address field of a 2 MiB page. -/
def hugeMask : Pte := ptePhysMask &&& ~~~0x1FFFFF#64

theorem and_not_of_and_eq_zero {x m : BitVec 64} (h : x &&& m = 0#64) : x &&& ~~~m = x := by
  have hall : x &&& (m ||| ~~~m) = x := by rw [BitVec.or_not_self, BitVec.and_allOnes]
  rw [BitVec.and_or_distrib_left, h, BitVec.zero_or] at hall
  exact hall

theorem ofNat_and_hugeMask (ha : 2 ^ 21 ∣ page) (hlt : page < 2 ^ 52) :
    BitVec.ofNat 64 page &&& hugeMask = BitVec.ofNat 64 page := by
  have hpage : pageSize ∣ page := Dvd.dvd.trans ⟨512, rfl⟩ ha
  have hlow : BitVec.ofNat 64 page &&& 0x1FFFFF#64 = 0#64 := by
    apply BitVec.eq_of_toNat_eq
    rw [BitVec.toNat_and, BitVec.toNat_ofNat, Nat.mod_eq_of_lt (show page < 2 ^ 64 by omega)]
    have hmod := Nat.and_two_pow_sub_one_eq_mod page 21
    rw [Nat.mod_eq_zero_of_dvd ha] at hmod
    exact hmod
  unfold hugeMask
  rw [← BitVec.and_assoc, ofNat_and_mask hpage hlt, and_not_of_and_eq_zero hlow]

/-- The entry of a copied large page. -/
theorem hugeEntry_block (ha : 2 ^ 21 ∣ page) (hlt : page < 2 ^ 52) :
    let e' := (BitVec.ofNat 64 page &&& hugeMask) ||| (e &&& ~~~hugeMask)
    hugePhysOf e' = page ∧ ∀ flag, flag &&& hugeMask = 0#64 → hasFlag e' flag = hasFlag e flag := by
  intro e'
  have hpage := ofNat_and_hugeMask ha hlt
  have hmask : e' &&& hugeMask = BitVec.ofNat 64 page := by
    show ((BitVec.ofNat 64 page &&& hugeMask) ||| (e &&& ~~~hugeMask)) &&& hugeMask = _
    rw [hpage, BitVec.and_or_distrib_right, hpage, BitVec.and_assoc,
      show ~~~hugeMask &&& hugeMask = 0#64 by decide, BitVec.and_zero, BitVec.or_zero]
  refine ⟨?_, ?_⟩
  · have hphys : hugePhysOf e' = (e' &&& hugeMask).toNat := by
      unfold hugePhysOf hugeMask
      rw [BitVec.and_assoc]
    rw [hphys, hmask, BitVec.toNat_ofNat]
    exact Nat.mod_eq_of_lt (by omega)
  intro flag hflag
  have hnot : ~~~hugeMask &&& flag = flag := by
    rw [BitVec.and_comm]
    exact and_not_of_and_eq_zero hflag
  have hzero : BitVec.ofNat 64 page &&& flag = 0#64 := by
    rw [← hpage, BitVec.and_assoc, BitVec.and_comm hugeMask, hflag, BitVec.and_zero]
  unfold hasFlag
  show (((BitVec.ofNat 64 page &&& hugeMask) ||| (e &&& ~~~hugeMask)) &&& flag != 0#64) = _
  rw [hpage, BitVec.and_or_distrib_right, hzero, BitVec.zero_or, BitVec.and_assoc, hnot]

/-- **The branch for a 2 MiB page.** -/
theorem cloneHugeEntry_took (hd : During st0 st) (ht : Target st0 st n' [i])
    (hpresent : hasFlag e vmmPresent = true) (hpse : hasFlag e vmmPse = true)
    (hcall : cloneHugeEntry n' st i e = some st') : Took st0 1 n' [i] st st' := by
  unfold cloneHugeEntry at hcall
  cases halloc : pmmAlloc st.pmm 512 with
  | none =>
    rw [halloc] at hcall
    cases hcall
  | some r =>
    obtain ⟨ptr, pmm⟩ := r
    rw [halloc] at hcall
    simp only at hcall
    cases (pmmAlloc_call hd.wf halloc).result hd.wf with
    | null =>
      -- no run of 512 frames is free, and the entry stays clear
      cases hcall
      exact .skip hd ht
    | block page order _ horder hmin htaken =>
      obtain rfl : order = 9 := by
        cases horder
        rfl
      have hdvd : 2 ^ 21 ∣ page := htaken.aligned.2
      have hmin0 : 0 < freeMinPhys := by decide
      have hlt : page < 2 ^ 52 := by
        have hrange := (htaken.aligned.phys_range hd.wf (htaken.phys_range hd.wf)).2
        have hend := hd.wf.memEnd_le
        have hsize := Nat.two_pow_pos (pageShift + 9)
        simp only at hrange
        omega
      have hptr : pmmVirtToPhys pmm (page + st.pmm.hhdmOffset) = page := by
        unfold pmmVirtToPhys
        rw [htaken.region.hhdmOffset]
        unfold sub64 u64
        omega
      rw [if_neg (by omega), hptr] at hcall
      obtain ⟨hphys, hflags⟩ := hugeEntry_block (e := e) hdvd hlt
      change some ((copyPages { st with pmm } (e &&& hugeMask).toNat page).write n' i
        ((BitVec.ofNat 64 page &&& hugeMask) ||| (e &&& ~~~hugeMask))) = some st' at hcall
      generalize (BitVec.ofNat 64 page &&& hugeMask) ||| (e &&& ~~~hugeMask) = e'
        at hcall hphys hflags
      generalize (e &&& hugeMask).toNat = src at hcall
      -- the frames of the new page were free
      have hfree : ∀ k < 512, Free st (page + k * pageSize) := by
        intro k hk
        unfold Free
        rw [htaken.frames, mem_add]
        left
        rw [PmmBlock.mem_frames, Nat.add_mul_div_right _ _ pageSize_pos]
        show page / pageSize ≤ _ ∧ _ < page / pageSize + 2 ^ 9
        omega
      have hother : ∀ k, ¬ Free st k → ∀ j < 512, k ≠ page + j * pageSize :=
        fun k hk j hj heq => hk (heq ▸ hfree j hj)
      have hle : freeFrames pmm ≤ freeFrames st.pmm := by
        rw [htaken.frames]
        exact Multiset.le_add_left _ _
      cases hcall
      generalize hst : (copyPages { st with pmm } src page).write n' i e' = st2
      have hpmm : st2.pmm = pmm := by
        simp only [← hst, VmState.write, copyPages_pmm]
      have hkeep : ∀ k, k ≠ n' → ¬ Free st k → st2.mem k = st.mem k := by
        intro k hk hkf
        rw [← hst, VmState.write_other hk, copyPages_other (hother k hkf)]
      have hentry : tableBlocks st2.mem 1 n' [i] = [(page, 512)] := by
        rw [← hst]
        simp only [tableBlocks, List.flatMap_cons, List.flatMap_nil, List.append_nil,
          VmState.write_self, hflags vmmPresent (by decide), hflags vmmPse (by decide), hpresent,
          hpse, hphys, Bool.not_true, Bool.false_eq_true, if_false, and_self, if_true]
      refine ⟨⟨?_, ?_, ?_⟩, ?_, ?_, ?_, hkeep, ?_⟩
      · rw [hpmm]
        exact htaken.wf
      · rw [hpmm]
        exact hle.trans hd.free_le
      · intro k hk
        have hkn : k ≠ n' := fun heq => hk (heq ▸ ht.taken)
        rw [hkeep k hkn fun h => hk (h.of_le hd.free_le), hd.kept k hk]
      · rw [hpmm]
        exact htaken.region
      · rw [hentry, hpmm, htaken.frames]
        simp [blockFrames, PmmBlock.frames]
      · intro b hb
        rw [hentry, List.mem_singleton] at hb
        rw [hb]
        exact ⟨9, show pagesToOrder 512 = some (some 9) by decide, rfl, htaken.aligned, hmin⟩
      · intro j hj
        rw [← hst, VmState.write_index (by simpa using hj), copyPages_other (hother n' ht.owned)]

/-! ## Section 5: Tables -/

/-- A table taken and linked, and the table of the source cloned into it. -/
theorem Took.nest {t : Nat} {e' : Pte} (htaken : PageTaken st t st₁)
    (hregion : SameRegion st.pmm st₁.pmm) (hn' : ¬ Free st n') (ht : child e' = some t)
    (h : Took st0 level t (List.finRange 512) (st₁.write n' i e') st') :
    Took st0 (level + 1) n' [i] st st' := by
  obtain ⟨hpresent, hpse, hphys⟩ := child_eq_some.mp ht
  have hne : n' ≠ t := fun heq => hn' (heq ▸ htaken.free)
  have hle : freeFrames (st₁.write n' i e').pmm ≤ freeFrames st.pmm := htaken.free_le
  have hkept : st'.mem n' = (st₁.write n' i e').mem n' :=
    h.frame n' hne fun hf => hn' (hf.of_le hle)
  have hentry : st'.mem n' i = e' := by rw [hkept, VmState.write_self]
  have hblocks : tableBlocks st'.mem (level + 1) n' [i] =
      tableBlocks st'.mem level t (List.finRange 512) ++ [(t, 1)] := by
    simp only [tableBlocks, List.flatMap_cons, List.flatMap_nil, List.append_nil, hentry, hpresent,
      hpse, hphys, Bool.not_true, Bool.false_eq_true, if_false, and_false]
  refine ⟨h.during, hregion.trans h.region, ?_, ?_, ?_, ?_⟩
  · have hframes := h.frames
    rw [hblocks, blockFrames_append, add_assoc, add_comm (blockFrames [(t, 1)]), ← add_assoc,
      hframes, htaken.frames, add_comm]
    simp [blockFrames, span, VmState.write]
  · intro b hb
    rw [hblocks] at hb
    rcases List.mem_append.mp hb with hb | hb
    · exact h.blocks b hb
    · rw [List.mem_singleton] at hb
      rw [hb]
      exact isBlock_page htaken.aligned htaken.low
  · intro k hk hfree
    have hkt : k ≠ t := fun heq => hfree (heq ▸ htaken.free)
    rw [h.frame k hkt fun hf => hfree (hf.of_le hle), VmState.write_other hk, htaken.mem_other hkt]
  · intro j hj
    rw [hkept, VmState.write_index (by simpa using hj), htaken.mem_other hne]

/-- **The body of the outer loops**, given what the loop it runs takes. -/
theorem cloneEntry_took
    (hsub : ∀ n n' st st', During st0 st → SourceTable st0 level n (List.finRange 512) →
      Target st0 st n' (List.finRange 512) →
      cloneTable level n n' st (List.finRange 512) = some st' →
      Took st0 level n' (List.finRange 512) st st')
    (hd : During st0 st) (hs : SourceTable st0 (level + 1) n [i]) (ht : Target st0 st n' [i])
    (hcall : cloneEntry level n n' st i = some st') : Took st0 (level + 1) n' [i] st st' := by
  have hread : st.mem n i = st0.mem n i := by rw [hd.kept n hs.not_free]
  unfold cloneEntry at hcall
  rw [hread] at hcall
  cases hpresent : hasFlag (st0.mem n i) vmmPresent with
  | false =>
    simp only [hpresent, Bool.not_false, if_true] at hcall
    cases hcall
    exact .skip hd ht
  | true =>
    simp only [hpresent, Bool.not_true, Bool.false_eq_true, if_false] at hcall
    rcases hs.2 i (by simp) hpresent with ⟨rfl, hpse⟩ | ⟨hpse, hbelow⟩
    · simp only [hpse, and_self, if_true] at hcall
      exact cloneHugeEntry_took hd ht hpresent hpse hcall
    simp only [hpse, Bool.false_eq_true, and_false, if_false, allocTable] at hcall
    rcases allocPage_cases hd.wf with ⟨heq, _⟩ | ⟨t, st₁, heq, hne, htaken⟩
    · -- without a table the call does not return
      simp only [heq, if_true] at hcall
      cases hcall
    simp only [heq, hne, if_false] at hcall
    have hlink := child_clonedTable htaken.aligned htaken.high hpresent hpse
    generalize BitVec.ofNat 64 t ||| (st0.mem n i &&& 0xFFF#64) = e' at hlink hcall
    have hd1 : During st0 (st₁.write n' i e') := (hd.taken htaken).write ht.taken
    exact .nest htaken (allocPage_region hd.wf heq) ht.owned hlink
      (hsub _ t _ st' hd1 hbelow (ht.fresh hd htaken e') hcall)

/-- **The loops of `vmm_clone_pagemap`**, at every level. -/
theorem cloneTable_took (level : Nat) :
    ∀ n n' st is st', is.Nodup → During st0 st → SourceTable st0 level n is →
      Target st0 st n' is → cloneTable level n n' st is = some st' →
      Took st0 level n' is st st' := by
  induction level with
  | zero =>
    intro n n' st is st' hnodup hd hs ht hcall
    refine took_foldlM ?_ is st st' hnodup hd hs ht hcall
    intro st i st' hd _ ht hcall
    exact clonePageEntry_took hd ht hcall
  | succ level ih =>
    intro n n' st is st' hnodup hd hs ht hcall
    refine took_foldlM ?_ is st st' hnodup hd hs ht hcall
    intro st i st' hd hs ht hcall
    exact cloneEntry_took
      (fun n n' st st' hd hs ht hcall => ih n n' st _ st' (List.nodup_finRange 512) hd hs ht hcall)
      hd hs ht hcall

/-! ## Section 6: Clone and free -/

/-- The frames of the shared pages of a pagemap's user half. -/
def SharedFrame (st : VmState) (src : Nat) (f : Nat) : Prop :=
  ∃ virt r, (pml4Index virt).val < 256 ∧
    Radix.lookup child leaf st.mem src (path virt) = some r ∧ hasFlag r.2 vmmShared = true ∧
    f = (resolve virt r).toNat / pageSize

/-- The frames of the kernel half: its tables, and what it maps outside the direct map. -/
def KernelFrame (st : VmState) (f : Nat) : Prop :=
  KernelMaps st st.kernelPml4 f ∨
  ∃ i p n, 256 ≤ i.val ∧ p.length ≤ 2 ∧ f = n / pageSize ∧
    Radix.walk child st.mem st.kernelPml4 (i :: p) = some n

/-- A pagemap with 4 KiB and 2 MiB user pages whose tables are in use, as are the frames
    it shares and those of the kernel half. -/
structure SourceOk (st : VmState) (src : Nat) : Prop where
  pmm     : Wf st.pmm
  tables  : SourceTable st 3 src userHalf
  shared  : ∀ f, SharedFrame st src f → f ∉ freeFrames st.pmm
  kernel  : ∀ f, KernelFrame st f → f ∉ freeFrames st.pmm

/-- The blocks of the clone, the two pages of the pagemap itself included. -/
theorem vmmClonePagemap_took {map pml4 : Nat} (h : SourceOk st src)
    (hcall : vmmClonePagemap st src = some ((map, pml4), st₁)) (hmap : map ≠ 0) :
    pml4 ≠ 0 ∧ Wf st₁.pmm ∧ SameRegion st.pmm st₁.pmm ∧
      (∀ b ∈ pagemapBlocks st₁.mem map pml4, IsBlock b) ∧
      blockFrames (pagemapBlocks st₁.mem map pml4) + freeFrames st₁.pmm = freeFrames st.pmm := by
  unfold vmmClonePagemap at hcall
  split at hcall
  · cases hcall
    exact absurd rfl hmap
  rcases allocPage_cases h.pmm with ⟨heq, _⟩ | ⟨map', sta, heq, hmap', hta⟩
  · simp only [heq, if_true] at hcall
    cases hcall
    exact absurd rfl hmap
  simp only [heq, hmap', if_false, allocTable] at hcall
  rcases allocPage_cases hta.wf with ⟨heq2, _⟩ | ⟨pml4', stb, heq2, hpml4, htb⟩
  · simp only [heq2, if_true] at hcall
    cases hcall
  simp only [heq2, hpml4, if_false] at hcall
  have hregion : SameRegion st.pmm stb.pmm :=
    (allocPage_region h.pmm heq).trans (allocPage_region hta.wf heq2)
  obtain ⟨hd, htarget⟩ := clone_start h.pmm hta htb
  have hpmm := copyKernelHalf_pmm stb pml4'
  generalize copyKernelHalf stb pml4' = stc at hcall hpmm hd htarget
  cases hloop : cloneTable 3 src pml4' stc userHalf with
  | none =>
    rw [hloop] at hcall
    cases hcall
  | some st' =>
    rw [hloop] at hcall
    simp only [some.injEq, Prod.mk.injEq] at hcall
    obtain ⟨⟨rfl, rfl⟩, rfl⟩ := hcall
    have htook := cloneTable_took 3 src pml4' stc userHalf st' nodup_userHalf hd h.tables
      htarget hloop
    refine ⟨hpml4, htook.during.wf, ?_, ?_, ?_⟩
    · rw [← hpmm] at hregion
      exact hregion.trans htook.region
    · intro b hb
      rcases List.mem_append.mp hb with hb | hb
      · exact htook.blocks b hb
      · rcases List.mem_pair.mp hb with rfl | rfl
        · exact isBlock_page htb.aligned htb.low
        · exact isBlock_page hta.aligned hta.low
    have hframes := htook.frames
    rw [hpmm] at hframes
    unfold pagemapBlocks
    rw [blockFrames_append, add_assoc, add_comm (blockFrames [(pml4', 1), (map', 1)]),
      ← add_assoc, hframes, hta.frames, htb.frames]
    simp only [blockFrames, span, List.range'_one, coe_singleton, add_zero]
    abel

/-- **Clone then free is neutral.** A clone that has been made is freed by calls of
    `pmm_free` on blocks that are pairwise disjoint and together the frames that the clone
    took. Afterwards the free frames are those before the clone. None of the blocks has a
    shared frame of the source or a frame of the kernel half. -/
theorem clone_then_free_neutral {st st₁ : VmState} {src map pml4 : Nat} (h : SourceOk st src)
    (hcall : vmmClonePagemap st src = some ((map, pml4), st₁)) (hmap : map ≠ 0) :
    ∃ st₂, vmmFreePagemap st₁ map pml4 = some st₂ ∧
      (pagemapBlocks st₁.mem map pml4).foldlM (fun st b => st.free b.1 b.2) st₁ = some st₂ ∧
      blockFrames (pagemapBlocks st₁.mem map pml4) + freeFrames st₁.pmm = freeFrames st.pmm ∧
      (blockFrames (pagemapBlocks st₁.mem map pml4)).Nodup ∧
      freeFrames st₂.pmm = freeFrames st.pmm ∧
      ∀ f ∈ blockFrames (pagemapBlocks st₁.mem map pml4),
        ¬ SharedFrame st src f ∧ ¬ KernelFrame st f := by
  obtain ⟨hpml4, hwf1, hregion, hblocks, hframes⟩ := vmmClonePagemap_took h hcall hmap
  obtain ⟨st₂, hfree, hfrom, hback⟩ := free_blocks h.pmm hwf1 hregion hblocks hframes
  have hnodup := h.pmm.nodup
  rw [← hframes, nodup_add] at hnodup
  refine ⟨st₂, ?_, hfree, hframes, hnodup.1, hback, ?_⟩
  · unfold vmmFreePagemap
    rw [if_neg (not_or.mpr ⟨hmap, hpml4⟩), freeTable_eq 3 pml4 userHalf st₁ rfl]
    unfold pagemapBlocks at hfrom hblocks
    rw [freeBlocksFrom_append] at hfrom
    obtain ⟨sta, hbelow, htop⟩ := bind_eq_some_iff.mp hfrom
    have hlow : ∀ page, IsBlock (page, 1) → ∀ st : VmState,
        st.freeFrom page 1 = st.free page 1 := by
      intro page hpage st
      obtain ⟨_, _, _, _, hmin⟩ := hpage
      exact if_pos hmin
    rw [← List.singleton_append, freeBlocksFrom_append, freeBlocksFrom_single,
      hlow pml4 (hblocks _ (by simp))] at htop
    obtain ⟨stb, hfirst, hlast⟩ := bind_eq_some_iff.mp htop
    rw [freeBlocksFrom_single, hlow map (hblocks _ (by simp))] at hlast
    simp only [hbelow, hfirst, hlast]
  intro f hf
  have hmem : f ∈ freeFrames st.pmm := by
    rw [← hframes]
    exact mem_add.mpr (.inl hf)
  exact ⟨fun hs => h.shared f hs hmem, fun hk => h.kernel f hk hmem⟩

/-! ## Section 7: A task with one page -/

/-- Pagemaps built by mapping are sources of a clone. -/
theorem UserTable.source (level : Nat) :
    ∀ {n : Nat} {is : List (Fin 512)}, UserTable st level n is → SourceTable st level n is := by
  induction level with
  | zero => exact fun h => h.1
  | succ level ih =>
    intro n is h
    refine ⟨h.1, fun i hi hpresent => ?_⟩
    obtain ⟨hpse, hbelow⟩ := h.2 i hi hpresent
    exact .inr ⟨hpse, ih hbelow⟩

theorem UserTable.shared_in_use {f : Nat} (h : UserTable st 3 src userHalf)
    (hf : SharedFrame st src f) : f ∉ freeFrames st.pmm := by
  obtain ⟨virt, ⟨k, e⟩, hv, hl, _, hfe⟩ := hf
  obtain ⟨rfl, _, hnot⟩ := h.lookup (mem_userHalf.mpr hv)
    (show [pdptIndex virt, pdIndex virt, ptIndex virt].length = 3 from rfl) hl
  have hpage := pageOf_resolve virt e
  unfold pageOf at hpage
  have hfe' : f = physOf e / pageSize := by
    rw [hfe, ← hpage, Nat.mul_div_cancel _ pageSize_pos]
  rw [hfe']
  exact hnot

/-- A shared page at `0x300000`. -/
def sharedEntry : Pte := 0x300000#64 ||| (vmmPresent ||| vmmUser ||| vmmShared)

/-- The chain of tables from frame 512 on, beside eleven free pages. The last table also has a
    shared page. -/
def chainSource : VmState :=
  { bootState 11 with mem := Radix.set chainState.mem (pageSize * 515) 1 sharedEntry }

theorem chainSource_in_use (hk : 512 ≤ k) : ¬ Free chainSource (pageSize * k) := by
  unfold Free
  rw [Nat.mul_div_cancel_left _ pageSize_pos, show chainSource.pmm = (bootState 11).pmm from rfl,
    (bootState_free 11).2, mem_span]
  omega

/-- One entry is present in each table, and leads to the next frame, beside the shared page. -/
theorem chainSource_entry (hk : k < 2 ^ 39) (i : Fin 512) :
    (i = 0 ∧ hasFlag (chainSource.mem (pageSize * k) i) vmmPresent = true ∧
      hasFlag (chainSource.mem (pageSize * k) i) vmmPse = false ∧
      physOf (chainSource.mem (pageSize * k) i) = pageSize * (k + 1)) ∨
    (i ≠ 0 ∧ hasFlag (chainSource.mem (pageSize * k) i) vmmPresent = false) ∨
    (k = 515 ∧ i ≠ 0 ∧ chainSource.mem (pageSize * k) i = sharedEntry) := by
  by_cases hshared : pageSize * k = pageSize * 515 ∧ i = 1
  · refine .inr (.inr ⟨Nat.eq_of_mul_eq_mul_left pageSize_pos hshared.1, ?_, if_pos hshared⟩)
    rw [hshared.2]
    decide
  have hmem : chainSource.mem (pageSize * k) i = chainState.mem (pageSize * k) i :=
    if_neg hshared
  rw [hmem]
  by_cases hi : i = 0
  · left
    have hchild := child_chain hk i
    rw [if_pos hi] at hchild
    exact ⟨hi, child_eq_some.mp hchild⟩
  · refine .inr (.inl ⟨hi, ?_⟩)
    simp only [chainState, if_neg hi, hasFlag_zero]

theorem chainSource_userTable (level : Nat) :
    ∀ {k : Nat} (is : List (Fin 512)), 512 ≤ k → k + level = 515 →
      UserTable chainSource level (pageSize * k) is := by
  induction level with
  | zero =>
    intro k is hk hlast
    refine ⟨chainSource_in_use hk, fun i _ hpresent => ?_⟩
    rcases chainSource_entry (show k < 2 ^ 39 by omega) i with
      ⟨_, _, _, hphys⟩ | ⟨_, habsent⟩ | ⟨_, _, hshared⟩
    · rw [hphys]
      refine ⟨?_, chainSource_in_use (by omega)⟩
      unfold freeMinPhys pageSize
      omega
    · rw [habsent] at hpresent
      cases hpresent
    · rw [hshared, show physOf sharedEntry = pageSize * 768 by decide]
      exact ⟨by decide, chainSource_in_use (by decide)⟩
  | succ level ih =>
    intro k is hk hlast
    refine ⟨chainSource_in_use hk, fun i _ hpresent => ?_⟩
    rcases chainSource_entry (show k < 2 ^ 39 by omega) i with
      ⟨_, _, hpse, hphys⟩ | ⟨_, habsent⟩ | ⟨hk', _⟩
    · refine ⟨hpse, ?_⟩
      rw [hphys]
      exact ih _ (by omega) (by omega)
    · rw [habsent] at hpresent
      cases hpresent
    · omega

theorem chainSource_requests (level : Nat) :
    ∀ {k : Nat} {is : List (Fin 512)}, 512 ≤ k → k + level = 515 → is.Nodup → 0 ∈ is →
      (tableRequests chainSource.mem level (pageSize * k) is).length ≤ level + 1 := by
  induction level with
  | zero =>
    intro k is hk hlast hnodup hzero
    rw [tableRequests, flatMap_only hnodup hzero]
    · unfold pageRequests
      split <;> simp
    intro j _ hj
    rcases chainSource_entry (show k < 2 ^ 39 by omega) j with
      ⟨hj0, _⟩ | ⟨_, habsent⟩ | ⟨_, _, hshared⟩
    · exact absurd hj0 hj
    · simp [pageRequests, habsent]
    · rw [hshared]
      decide
  | succ level ih =>
    intro k is hk hlast hnodup hzero
    rcases chainSource_entry (show k < 2 ^ 39 by omega) 0 with
      ⟨_, hpresent, _, hphys⟩ | ⟨hne, _⟩ | ⟨_, hne, _⟩
    · rw [tableRequests, flatMap_only hnodup hzero, if_pos hpresent, hphys]
      · have := ih (show 512 ≤ k + 1 by omega) (by omega) (List.nodup_finRange 512)
          (List.mem_finRange 0)
        simp only [List.length_cons]
        omega
      intro j _ hj
      rcases chainSource_entry (show k < 2 ^ 39 by omega) j with
        ⟨hj0, _⟩ | ⟨_, habsent⟩ | ⟨hk', _⟩
      · exact absurd hj0 hj
      · simp [habsent]
      · omega
    · exact absurd rfl hne
    · exact absurd rfl hne

/-- The kernel's table has nothing in its upper half. -/
theorem chainSource_kernel (f : Nat) : ¬ KernelFrame chainSource f := by
  have habsent : ∀ i : Fin 512, 256 ≤ i.val →
      hasFlag (chainSource.mem chainSource.kernelPml4 i) vmmPresent = false := by
    intro i hi
    rcases chainSource_entry (show 1 < 2 ^ 39 by decide) i with
      ⟨rfl, _⟩ | ⟨_, habsent⟩ | ⟨hk, _⟩
    · exact absurd hi (by decide)
    · exact habsent
    · exact absurd hk (by decide)
  rintro (⟨virt, phys, hk, _, htrans, _⟩ | ⟨i, p, n, hi, _, _, hwalk⟩)
  · unfold Vmm.translate at htrans
    split at htrans
    · rename_i hcanon
      have hnone : vmmVirtToPhys chainSource chainSource.kernelPml4 virt = none := by
        simp [vmmVirtToPhys, habsent _ (hcanon.kernel hk)]
      rw [hnone] at htrans
      cases htrans
    · cases htrans
  · simp [Radix.walk, child_absent (habsent i hi)] at hwalk

theorem chainSource_ok : SourceOk chainSource (pageSize * 512) := by
  have hu := chainSource_userTable 3 userHalf (le_refl 512) rfl
  exact ⟨(bootState_free 11).1, hu.source 3, fun f hf => hu.shared_in_use hf,
    fun f hf => absurd hf (chainSource_kernel f)⟩

/-- Its clone and the free of the clone: the eleven pages are free again, and the shared frame
    was not freed. -/
theorem clone_then_free_neutral_chain :
    ∃ map pml4 st₁ st₂, vmmClonePagemap chainSource (pageSize * 512) = some ((map, pml4), st₁) ∧
      map ≠ 0 ∧ vmmFreePagemap st₁ map pml4 = some st₂ ∧
      freeFrames st₂.pmm = freeFrames chainSource.pmm ∧
      768 ∉ blockFrames (pagemapBlocks st₁.mem map pml4) := by
  have hok := chainSource_ok
  have hcard : (freeFrames chainSource.pmm).card = 11 := by
    rw [show chainSource.pmm = (bootState 11).pmm from rfl, (bootState_free 11).2, card_span]
    rfl
  have hreq := chainSource_requests 3 (le_refl 512) rfl nodup_userHalf
    (mem_userHalf.mpr (by decide))
  have hshared : SharedFrame chainSource (pageSize * 512) 768 :=
    ⟨0x1000#64, (0, sharedEntry), by decide, by decide +kernel, by decide, by decide⟩
  rcases vmmClonePagemap_spec hok.pmm (by decide)
      (chainSource_userTable 3 userHalf (le_refl 512) rfl) with ⟨hzero, _⟩ |
    ⟨_, _, htable⟩ | ⟨map, pml4, _, st₁, hclone, hmap, _⟩
  · omega
  · have hdrop : (cloneRequests chainSource (pageSize * 512)).drop
        (freeFrames chainSource.pmm).card = [] := by
      apply List.drop_eq_nil_of_le
      simp only [cloneRequests, List.length_cons]
      omega
    rw [hdrop] at htable
    cases htable
  · obtain ⟨st₂, hfree, _, _, _, hback, hkept⟩ := clone_then_free_neutral hok hclone hmap
    exact ⟨map, pml4, st₁, st₂, hclone, hmap, hfree, hback, fun hf => (hkept 768 hf).1 hshared⟩

end Cervus.Vmm
