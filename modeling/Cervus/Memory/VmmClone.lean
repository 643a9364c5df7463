import Cervus.Memory.VmmMap

/-! # Cloning a pagemap

    What `vmm_clone_pagemap` leaves behind. The nested loops ask the allocator for
    pages in a fixed order (`cloneRequests`); the n-th request is granted exactly
    when n frames were free at the start. A table that is refused halts the call;
    a data page that is refused is skipped, and its page is missing in the clone.

    The loop at every level has one specification (`Cloned`): it composes over the
    entries of a table (`Cloned.cons`), is proved for one page (`clonePageEntry_spec`)
    and for one inner entry (`cloneEntry_spec`), and so for whole tables
    (`cloneTable_spec`). -/

namespace Cervus.Vmm

open Cervus.Pmm Radix

/-! ## Section 1: The requests of a clone -/

/-- The pages a clone asks for: the one of the `vmm_pagemap_t`, tables, data pages. -/
inductive Request where
  | map
  | table
  | page
  deriving DecidableEq, Repr

/-- The request for one entry of a page table. -/
def pageRequests (e : Pte) : List Request :=
  if hasFlag e vmmPresent && !hasFlag e vmmShared && decide (freeMinPhys ≤ physOf e) then [.page]
  else []

/-- The requests for the entries `is` of a table, in the order of the loops. -/
def tableRequests (m : Nat → Fin 512 → Pte) : Nat → Nat → List (Fin 512) → List Request
  | 0, n, is => is.flatMap fun i => pageRequests (m n i)
  | level + 1, n, is => is.flatMap fun i =>
      if hasFlag (m n i) vmmPresent then
        .table :: tableRequests m level (physOf (m n i)) (List.finRange 512)
      else []

/-- All requests of `vmm_clone_pagemap`. -/
def cloneRequests (st : VmState) (src : Nat) : List Request :=
  .map :: .table :: tableRequests st.mem 3 src userHalf

theorem tableRequests_cons (m : Nat → Fin 512 → Pte) (level n : Nat) (i : Fin 512)
    (is : List (Fin 512)) : tableRequests m level n (i :: is) =
      tableRequests m level n [i] ++ tableRequests m level n is := by
  cases level <;> simp [tableRequests]

/-! ## Section 2: The source -/

/-- The page is on the free lists. -/
def Free (st : VmState) (page : Nat) : Prop := page / pageSize ∈ freeFrames st.pmm

/-- The entries `is` of a table lead to tables and pages that are not free, by
    entries that are no large pages, and the pages lie at or above 1 MiB. -/
def UserTable (st : VmState) : Nat → Nat → List (Fin 512) → Prop
  | 0, n, is => ¬ Free st n ∧ ∀ i ∈ is, hasFlag (st.mem n i) vmmPresent = true →
      freeMinPhys ≤ physOf (st.mem n i) ∧ ¬ Free st (physOf (st.mem n i))
  | level + 1, n, is => ¬ Free st n ∧ ∀ i ∈ is, hasFlag (st.mem n i) vmmPresent = true →
      hasFlag (st.mem n i) vmmPse = false ∧
      UserTable st level (physOf (st.mem n i)) (List.finRange 512)

variable {st st' st0 st1 st2 : VmState} {level n k n' t : Nat} {is q : List (Fin 512)} {i : Fin 512}
  {e : Pte} {es : Fin 512 → Pte} {m : Nat → Fin 512 → Pte}

theorem UserTable.not_free (h : UserTable st level n is) : ¬ Free st n := by
  cases level <;> exact h.1

theorem UserTable.sub {js : List (Fin 512)} (h : UserTable st level n is)
    (hsub : ∀ j ∈ js, j ∈ is) :
    UserTable st level n js := by
  cases level with
  | zero => exact ⟨h.1, fun j hj => h.2 j (hsub j hj)⟩
  | succ level => exact ⟨h.1, fun j hj => h.2 j (hsub j hj)⟩

/-- Every mapping below such entries is a page at or above 1 MiB that is not free. -/
theorem UserTable.lookup (h : UserTable st level n is) (hi : i ∈ is) (hq : q.length = level)
    (hl : lookup child leaf st.mem n (i :: q) = some (k, e)) :
    k = 0 ∧ freeMinPhys ≤ physOf e ∧ ¬ Free st (physOf e) := by
  induction level generalizing n is i q with
  | zero =>
    rw [List.eq_nil_of_length_eq_zero hq] at hl
    simp only [lookup, leaf] at hl
    by_cases hp : hasFlag (st.mem n i) vmmPresent = true
    · rw [if_pos hp] at hl
      cases hl
      exact ⟨rfl, h.2 i hi hp⟩
    · rw [if_neg hp] at hl
      cases hl
  | succ level ih =>
    obtain ⟨j, r, rfl⟩ : ∃ j r, q = j :: r := List.exists_cons_of_length_eq_add_one hq
    by_cases hp : hasFlag (st.mem n i) vmmPresent = true
    · obtain ⟨hpse, hsub⟩ := h.2 i hi hp
      have hchild : child (st.mem n i) = some (physOf (st.mem n i)) :=
        child_eq_some.mpr ⟨hp, hpse, rfl⟩
      simp only [lookup, hchild] at hl
      exact ih hsub (List.mem_finRange j) (by simpa using hq) hl
    · have habsent : hasFlag (st.mem n i) vmmPresent = false := by simpa using hp
      simp only [lookup, child_absent habsent, leaf_absent habsent] at hl
      cases hl

/-! ## Section 3: What a loop has done -/

/-- The state while a clone that began in `st₀` runs: pages that were not free in
    `st₀` are as they were, and no frame has been given back. -/
structure During (st₀ st : VmState) : Prop where
  wf      : Wf st.pmm
  free_le : freeFrames st.pmm ≤ freeFrames st₀.pmm
  kept    : ∀ n, ¬ Free st₀ n → st.mem n = st₀.mem n

/-- A table being filled: taken since the clone began, its entries `is` still clear. -/
structure Target (st₀ st : VmState) (n' : Nat) (is : List (Fin 512)) : Prop where
  taken : Free st₀ n'
  owned : ¬ Free st n'
  clear : ∀ i ∈ is, st.mem n' i = 0#64

/-- The mapping of a page in the source and in the clone: not mapped; shared; left
    out because no page was to be had; or copied to a page taken between `st` and
    `st'`. -/
inductive LeafCopied (st₀ st st' : VmState) :
    Option (Nat × Pte) → Option (Nat × Pte) → Prop where
  | absent : LeafCopied st₀ st st' none none
  | shared (e : Pte) : hasFlag e vmmShared = true → ¬ Free st₀ (physOf e) →
      LeafCopied st₀ st st' (some (0, e)) (some (0, e))
  | missing (e : Pte) : hasFlag e vmmShared = false → LeafCopied st₀ st st' (some (0, e)) none
  | copied (e e' : Pte) : hasFlag e vmmShared = false → e' &&& flagBits = e &&& flagBits →
      Free st (physOf e') → ¬ Free st' (physOf e') →
      st'.mem (physOf e') = st₀.mem (physOf e) →
      LeafCopied st₀ st st' (some (0, e)) (some (0, e'))

/-- What the loop over the entries `is` of table `n`, at a level, has done to the
    table `n'` between `st` and `st'`. -/
structure Cloned (st₀ : VmState) (level n n' : Nat) (is : List (Fin 512)) (st st' : VmState) :
    Prop where
  during   : During st₀ st'
  free_le  : freeFrames st'.pmm ≤ freeFrames st.pmm
  card     : (freeFrames st'.pmm).card =
    (freeFrames st.pmm).card - (tableRequests st₀.mem level n is).length
  frame    : ∀ k, k ≠ n' → ¬ Free st k → st'.mem k = st.mem k
  rest     : ∀ i, i ∉ is → st'.mem n' i = st.mem n' i
  noLarge  : 0 < level → ∀ i ∈ is, hasFlag (st'.mem n' i) vmmPse = false
  nodes    : ∀ i q c, i ∈ is → q.length < level →
    Radix.walk child st'.mem n' (i :: q) = some c → Free st c ∧ ¬ Free st' c
  leaves   : ∀ i q, i ∈ is → q.length = level →
    LeafCopied st₀ st st' (Radix.lookup child leaf st₀.mem n (i :: q))
      (Radix.lookup child leaf st'.mem n' (i :: q))
  inj      : ∀ i j p q e e', i ∈ is → j ∈ is → p.length = level → q.length = level →
    Radix.lookup child leaf st'.mem n' (i :: p) = some (0, e) →
    Radix.lookup child leaf st'.mem n' (j :: q) = some (0, e') →
    Free st (physOf e) → physOf e = physOf e' → i :: p = j :: q
  complete : (tableRequests st₀.mem level n is).length ≤ (freeFrames st.pmm).card →
    ∀ i q, i ∈ is → q.length = level →
      (Radix.lookup child leaf st₀.mem n (i :: q)).isSome →
      (Radix.lookup child leaf st'.mem n' (i :: q)).isSome
  short    : (freeFrames st.pmm).card < (tableRequests st₀.mem level n is).length →
    ∃ i q, i ∈ is ∧ q.length = level ∧
      (Radix.lookup child leaf st₀.mem n (i :: q)).isSome ∧
      Radix.lookup child leaf st'.mem n' (i :: q) = none

theorem Free.of_le (hle : freeFrames st'.pmm ≤ freeFrames st.pmm) (h : Free st' n) : Free st n :=
  Multiset.mem_of_le hle h

/-- Later steps, which leave owned pages alone, do not change the entries on the
    paths that were cloned. -/
theorem Cloned.entry_stable (h : Cloned st0 level n n' is st st1)
    (hn' : ¬ Free st n') (hi : i ∈ is) (hq : q.length ≤ level) (hentry : m n' i = st1.mem n' i)
    (hkeep : ∀ k, k ≠ n' → ¬ Free st1 k → m k = st1.mem k) (p : List (Fin 512)) (j : Fin 512)
    (r : List (Fin 512)) (c : Nat) (hsplit : i :: q = p ++ j :: r)
    (hwalk : walk child st1.mem n' p = some c) : m c j = st1.mem c j := by
  cases p with
  | nil =>
    cases hwalk
    simp only [List.nil_append, List.cons.injEq] at hsplit
    rw [← hsplit.1, hentry]
  | cons i' p =>
    obtain ⟨rfl, rfl⟩ := hsplit
    have hlt : p.length < level := by
      simp at hq
      omega
    obtain ⟨hfree, howned⟩ := h.nodes i p c hi hlt hwalk
    have hne : c ≠ n' := fun heq => hn' (heq ▸ hfree)
    rw [hkeep c hne howned]

/-- A mapping of the clone to a page that was free at the start is one of this
    loop's copies. -/
theorem Cloned.copied_page (h : Cloned st0 level n n' is st st') (hi : i ∈ is)
    (hq : q.length = level) (hl : lookup child leaf st'.mem n' (i :: q) = some (0, e))
    (hfree : Free st0 (physOf e)) : Free st (physOf e) ∧ ¬ Free st' (physOf e) := by
  have hleaf := h.leaves i q hi hq
  rw [hl] at hleaf
  generalize lookup child leaf st0.mem n (i :: q) = a at hleaf
  cases hleaf with
  | shared _ _ hf => exact absurd hfree hf
  | copied _ _ _ _ hf howned _ => exact ⟨hf, howned⟩

/-- A leaf copied early is still copied later. -/
theorem LeafCopied.mono {a b : Option (Nat × Pte)} (h : LeafCopied st0 st1 st2 a b)
    (hle : freeFrames st1.pmm ≤ freeFrames st.pmm) (hle' : freeFrames st'.pmm ≤ freeFrames st2.pmm)
    (hkeep : ∀ k, Free st1 k → ¬ Free st2 k → st'.mem k = st2.mem k) :
    LeafCopied st0 st st' a b := by
  cases h with
  | absent => exact .absent
  | shared e hs hf => exact .shared e hs hf
  | missing e hs => exact .missing e hs
  | copied e e' hs hbits hfree howned hmem =>
    refine .copied e e' hs hbits (hfree.of_le hle) (fun h => howned (h.of_le hle')) ?_
    rw [hkeep _ hfree howned, hmem]

/-- An empty loop. -/
theorem Cloned.nil (h : During st0 st) : Cloned st0 level n n' [] st st where
  during := h
  free_le := le_refl _
  card := by cases level <;> simp [tableRequests]
  frame _ _ _ := rfl
  rest _ _ := rfl
  noLarge _ _ hi := nomatch hi
  nodes _ _ _ hi := nomatch hi
  leaves _ _ hi := nomatch hi
  inj _ _ _ _ _ _ hi := nomatch hi
  complete _ _ _ hi := nomatch hi
  short hlt := by cases level <;> simp [tableRequests] at hlt

/-- One entry after another. -/
theorem Cloned.cons (h1 : Cloned st0 level n n' [i] st st1) (h2 : Cloned st0 level n n' is st1 st2)
    (hi : i ∉ is) (hn' : ¬ Free st n') (hsub : ∀ k, Free st k → Free st0 k) :
    Cloned st0 level n n' (i :: is) st st2 := by
  have hlen : (tableRequests st0.mem level n (i :: is)).length =
      (tableRequests st0.mem level n [i]).length + (tableRequests st0.mem level n is).length := by
    rw [tableRequests_cons, List.length_append]
  have hkeep2 : ∀ k, k ≠ n' → ¬ Free st1 k → st2.mem k = st1.mem k := h2.frame
  have hself : i ∈ [i] := List.mem_singleton_self i
  -- what the first entry cloned is not touched by the others
  have hstable : ∀ q, q.length ≤ level → ∀ p j r c, i :: q = p ++ j :: r →
      walk child st1.mem n' p = some c → st2.mem c j = st1.mem c j :=
    fun q hq => h1.entry_stable hn' hself hq (h2.rest i hi) hkeep2
  have hlookup : ∀ q, q.length = level → lookup child leaf st2.mem n' (i :: q) =
      lookup child leaf st1.mem n' (i :: q) := by
    intro q hq
    apply lookup_congr
    intro p j r c hsplit hwalk
    rw [hstable q (by omega) p j r c hsplit hwalk]
    exact ⟨rfl, rfl⟩
  have hpage : ∀ k, Free st k → ¬ Free st1 k → st2.mem k = st1.mem k := by
    intro k hk hk1
    exact hkeep2 k (fun heq => hn' (heq ▸ hk)) hk1
  refine ⟨h2.during, h2.free_le.trans h1.free_le, ?_, ?_, ?_, ?_, ?_, ?_, ?_, ?_, ?_⟩
  · rw [h2.card, h1.card, hlen]
    omega
  · intro k hk hfree
    rw [hkeep2 k hk fun h => hfree (h.of_le h1.free_le), h1.frame k hk hfree]
  · intro j hj
    rw [List.mem_cons, not_or] at hj
    rw [h2.rest j hj.2, h1.rest j (by simpa using hj.1)]
  · intro hlevel j hj
    rcases List.mem_cons.mp hj with rfl | hj
    · rw [h2.rest j hi]
      exact h1.noLarge hlevel j hself
    · exact h2.noLarge hlevel j hj
  · intro j q c hj hq hwalk
    rcases List.mem_cons.mp hj with rfl | hj
    · have hsame : walk child st2.mem n' (j :: q) = walk child st1.mem n' (j :: q) := by
        apply walk_congr
        intro p i' r c' hsplit hw
        rw [hstable q (by omega) p i' r c' hsplit hw]
      rw [hsame] at hwalk
      obtain ⟨hfree, howned⟩ := h1.nodes j q c hself hq hwalk
      exact ⟨hfree, fun h => howned (h.of_le h2.free_le)⟩
    · obtain ⟨hfree, howned⟩ := h2.nodes j q c hj hq hwalk
      exact ⟨hfree.of_le h1.free_le, howned⟩
  · intro j q hj hq
    rcases List.mem_cons.mp hj with rfl | hj
    · rw [hlookup q hq]
      exact (h1.leaves j q hself hq).mono (le_refl _) h2.free_le hpage
    · exact (h2.leaves j q hj hq).mono h1.free_le (le_refl _) fun _ _ _ => rfl
  · -- a page copied for the first entry is not free afterwards, one for the others was
    intro a b p q e e' ha hb hp hq hla hlb hfree heq
    have hfree' : Free st (physOf e') := heq ▸ hfree
    rcases List.mem_cons.mp ha with rfl | ha
    · rw [hlookup p hp] at hla
      rcases List.mem_cons.mp hb with rfl | hb
      · rw [hlookup q hq] at hlb
        exact h1.inj _ _ p q e e' hself hself hp hq hla hlb hfree heq
      · have hnot := (h1.copied_page hself hp hla (hsub _ hfree)).2
        rw [heq] at hnot
        exact absurd (h2.copied_page hb hq hlb (hsub _ hfree')).1 hnot
    have hfree1 := (h2.copied_page ha hp hla (hsub _ hfree)).1
    rcases List.mem_cons.mp hb with rfl | hb
    · rw [hlookup q hq] at hlb
      rw [heq] at hfree1
      exact absurd hfree1 (h1.copied_page hself hq hlb (hsub _ hfree')).2
    · exact h2.inj a b p q e e' ha hb hp hq hla hlb hfree1 heq
  · intro hle j q hj hq hsome
    rcases List.mem_cons.mp hj with rfl | hj
    · rw [hlookup q hq]
      exact h1.complete (by omega) j q hself hq hsome
    · exact h2.complete (by rw [h1.card]; omega) j q hj hq hsome
  intro hlt
  by_cases hfirst : (freeFrames st.pmm).card < (tableRequests st0.mem level n [i]).length
  · obtain ⟨j, q, hj, hq, hsome, hnone⟩ := h1.short hfirst
    obtain rfl : j = i := by simpa using hj
    exact ⟨j, q, List.mem_cons_self, hq, hsome, by rw [hlookup q hq, hnone]⟩
  · obtain ⟨j, q, hj, hq, hsome, hnone⟩ := h2.short (by rw [h1.card]; omega)
    exact ⟨j, q, List.mem_cons_of_mem _ hj, hq, hsome, hnone⟩

/-! ## Section 4: One entry of a page table -/

/-- One entry of a page table: no table below it, and one mapping. -/
theorem Cloned.page (hd : During st0 st') (hle : freeFrames st'.pmm ≤ freeFrames st.pmm)
    (hcard : (freeFrames st'.pmm).card =
      (freeFrames st.pmm).card - (pageRequests (st0.mem n i)).length)
    (hframe : ∀ k, k ≠ n' → ¬ Free st k → st'.mem k = st.mem k)
    (hrest : ∀ j, j ≠ i → st'.mem n' j = st.mem n' j)
    (hleaf : LeafCopied st0 st st' (leaf 0 (st0.mem n i)) (leaf 0 (st'.mem n' i)))
    (hcount : (pageRequests (st0.mem n i)).length ≤ (freeFrames st.pmm).card ↔
      ((leaf 0 (st0.mem n i)).isSome → (leaf 0 (st'.mem n' i)).isSome)) :
    Cloned st0 0 n n' [i] st st' := by
  have hreq : tableRequests st0.mem 0 n [i] = pageRequests (st0.mem n i) := by
    simp [tableRequests]
  refine ⟨hd, hle, by rw [hreq, hcard], hframe, ?_, ?_, ?_, ?_, ?_, ?_, ?_⟩
  · intro j hj
    exact hrest j (by simpa using hj)
  · intro hlevel
    exact absurd hlevel (Nat.lt_irrefl 0)
  · intro j q c _ hq
    exact absurd hq (Nat.not_lt_zero _)
  · intro j q hj hq
    obtain rfl : j = i := by simpa using hj
    rw [List.eq_nil_of_length_eq_zero hq]
    exact hleaf
  · intro j k p q e e' hj hk hp hq _ _ _ _
    obtain rfl : j = i := by simpa using hj
    obtain rfl : k = j := by simpa using hk
    rw [List.eq_nil_of_length_eq_zero hp, List.eq_nil_of_length_eq_zero hq]
  · intro hlen j q hj hq
    obtain rfl : j = i := by simpa using hj
    rw [List.eq_nil_of_length_eq_zero hq]
    rw [hreq] at hlen
    exact hcount.mp hlen
  intro hlt
  rw [hreq] at hlt
  have hnot := mt hcount.mpr (Nat.not_le.mpr hlt)
  rw [Classical.not_imp] at hnot
  exact ⟨i, [], by simp, rfl, hnot.1, by simpa [lookup] using hnot.2⟩

theorem leaf_present (h : hasFlag e vmmPresent = true) : leaf 0 e = some (0, e) := by
  simp [leaf, h]

/-- The entry of a copied page keeps the reported bits of the original. -/
theorem copiedEntry_bits {page : Nat} (e : Pte) (ha : pageSize ∣ page) (hlt : page < 2 ^ 52) :
    (BitVec.ofNat 64 page ||| (e &&& flagBits)) &&& flagBits = e &&& flagBits := by
  rw [BitVec.and_or_distrib_right, ofNat_and_flag ha hlt (by decide), BitVec.zero_or,
    BitVec.and_assoc, BitVec.and_self]

theorem copiedEntry_present {page : Nat} (ha : pageSize ∣ page) (hlt : page < 2 ^ 52)
    (he : hasFlag e vmmPresent = true) :
    hasFlag (BitVec.ofNat 64 page ||| (e &&& flagBits)) vmmPresent = true := by
  rw [hasFlag_link ha hlt (by decide)]
  unfold hasFlag at he ⊢
  rwa [BitVec.and_assoc, show flagBits &&& vmmPresent = vmmPresent by decide]

theorem copiedEntry_phys {page : Nat} (e : Pte) (ha : pageSize ∣ page) (hlt : page < 2 ^ 52) :
    physOf (BitVec.ofNat 64 page ||| (e &&& flagBits)) = page := by
  apply physOf_link ha hlt
  rw [BitVec.and_assoc, show flagBits &&& ptePhysMask = 0#64 by decide, BitVec.and_zero]

theorem PageTaken.free {page : Nat} (h : PageTaken st page st1) : Free st page := by
  unfold Free
  rw [h.frames]
  simp

theorem PageTaken.owned {page : Nat} (h : PageTaken st page st1) (hwf : Wf st.pmm) :
    ¬ Free st1 page := by
  have hnodup := hwf.nodup
  rw [h.frames, Multiset.singleton_add, Multiset.nodup_cons] at hnodup
  exact hnodup.1

theorem PageTaken.free_le {page : Nat} (h : PageTaken st page st1) :
    freeFrames st1.pmm ≤ freeFrames st.pmm := by
  rw [h.frames]
  exact Multiset.le_add_left _ _

theorem PageTaken.card {page : Nat} (h : PageTaken st page st1) :
    (freeFrames st.pmm).card = (freeFrames st1.pmm).card + 1 := by
  rw [h.frames, Multiset.card_add, Multiset.card_singleton, Nat.add_comm]

theorem PageTaken.mem_other {page : Nat} (h : PageTaken st page st1) (hk : k ≠ page) :
    st1.mem k = st.mem k := by
  rw [h.mem_eq]
  simp [fill, hk]

/-- Writing a table that was taken since the clone began. -/
theorem During.write (h : During st0 st) (hn' : Free st0 n') : During st0 (st.write n' i e) := by
  refine ⟨h.wf, h.free_le, ?_⟩
  intro k hk
  have hne : k ≠ n' := fun heq => hk (heq ▸ hn')
  rw [← h.kept k hk]
  funext j
  exact set_of_ne fun heq => absurd heq hne

theorem During.taken {page : Nat} (h : During st0 st) (ht : PageTaken st page st1) :
    During st0 st1 := by
  refine ⟨ht.wf, ht.free_le.trans h.free_le, ?_⟩
  intro k hk
  have hne : k ≠ page := fun heq => hk (heq ▸ ht.free.of_le h.free_le)
  rw [ht.mem_other hne, h.kept k hk]

theorem During.fillPage {page : Nat} (h : During st0 st) (hp : Free st0 page) :
    During st0 (st.fillPage page es) := by
  refine ⟨h.wf, h.free_le, ?_⟩
  intro k hk
  have hne : k ≠ page := fun heq => hk (heq ▸ hp)
  rw [← h.kept k hk]
  simp [VmState.fillPage, fill, hne]

theorem VmState.write_other (h : k ≠ n) : (st.write n i e).mem k = st.mem k := by
  funext j
  exact set_of_ne fun heq => absurd heq h

theorem VmState.write_self (st : VmState) (n : Nat) (i : Fin 512) (e : Pte) :
    (st.write n i e).mem n i = e := set_self _ _ _ _

theorem VmState.write_index {j : Fin 512} (h : j ≠ i) :
    (st.write n i e).mem n j = st.mem n j := set_of_ne fun _ => h

theorem VmState.fillPage_self (st : VmState) (page : Nat) (es : Fin 512 → Pte) :
    (st.fillPage page es).mem page = es := by
  simp [VmState.fillPage, fill]

theorem VmState.fillPage_other {page : Nat} (h : k ≠ page) :
    (st.fillPage page es).mem k = st.mem k := by
  simp [VmState.fillPage, fill, h]

/-- **The body of the innermost loop.** -/
theorem clonePageEntry_spec (hd : During st0 st) (hu : UserTable st0 0 n [i])
    (ht : Target st0 st n' [i]) :
    ∃ st', clonePageEntry n n' st i = some st' ∧ Cloned st0 0 n n' [i] st st' := by
  have hread : st.mem n i = st0.mem n i := by rw [hd.kept n hu.not_free]
  have hclear : leaf 0 (st.mem n' i) = none := by
    rw [ht.clear i (by simp)]
    exact leaf_absent (hasFlag_zero _) 0
  unfold clonePageEntry
  rw [hread]
  have hentry := hu.2 i (by simp)
  generalize hm : st0.mem n i = e at hentry ⊢
  cases hpresent : hasFlag e vmmPresent with
  | false =>
    -- nothing is mapped here
    refine ⟨st, by simp [hpresent], ?_⟩
    have hnone := leaf_absent hpresent 0
    apply Cloned.page hd (le_refl _) <;> simp [hm, pageRequests, hpresent, hnone, hclear]
    exact .absent
  | true =>
    obtain ⟨hmin, howned⟩ := hentry hpresent
    cases hshared : hasFlag e vmmShared with
    | true =>
      refine ⟨st.write n' i e, by simp [hpresent, hshared], ?_⟩
      have hnew : (st.write n' i e).mem n' i = e := st.write_self n' i e
      have hreq : pageRequests e = [] := by simp [pageRequests, hshared]
      refine Cloned.page (hd.write ht.taken) (le_refl (freeFrames st.pmm)) ?_ ?_ ?_ ?_ ?_
      · rw [hm, hreq]
        rfl
      · intro k hk _
        exact VmState.write_other hk
      · intro j hj
        exact VmState.write_index hj
      · rw [hm, hnew, leaf_present hpresent]
        exact .shared e hshared howned
      · rw [hm, hnew, hreq]
        simp
    | false =>
      have hreq : pageRequests e = [.page] := by
        simp [pageRequests, hpresent, hshared, hmin]
      simp only [hpresent, hshared, Bool.not_true, Bool.false_eq_true, if_false,
        Nat.not_lt.mpr hmin]
      rcases allocPage_cases hd.wf with ⟨heq, hfree⟩ | ⟨page, st1, heq, hne, htaken⟩
      · -- no page is free: the mapping is left out
        refine ⟨st, by simp [heq], ?_⟩
        apply Cloned.page hd (le_refl _)
        · simp [hfree]
        · exact fun _ _ _ => rfl
        · exact fun _ _ => rfl
        · rw [hm, leaf_present hpresent, hclear]
          exact .missing e hshared
        · rw [hm, hreq, hfree, leaf_present hpresent, hclear]
          simp
      -- a page is taken and filled with the contents of the original
      simp only [heq, hne, if_false]
      refine ⟨_, rfl, ?_⟩
      have hpage : page ≠ n' := fun h => ht.owned (h ▸ htaken.free)
      have hsrc : st1.mem (physOf e) = st0.mem (physOf e) := (hd.taken htaken).kept _ howned
      have hphys := copiedEntry_phys e htaken.aligned htaken.high
      generalize hbits : BitVec.ofNat 64 page ||| (e &&& flagBits) = e' at hphys ⊢
      have hnew : ((st1.fillPage page (st1.mem (physOf e))).write n' i e').mem n' i = e' :=
        VmState.write_self _ n' i e'
      have hpresent' : hasFlag e' vmmPresent = true := by
        rw [← hbits]
        exact copiedEntry_present htaken.aligned htaken.high hpresent
      have hfree0 : Free st0 page := htaken.free.of_le hd.free_le
      refine Cloned.page (((hd.taken htaken).fillPage hfree0).write ht.taken) htaken.free_le
        ?_ ?_ ?_ ?_ ?_
      · rw [hm, hreq]
        exact (Nat.sub_eq_of_eq_add htaken.card).symm
      · intro k hk hfree
        have hkp : k ≠ page := fun h => hfree (h ▸ htaken.free)
        rw [VmState.write_other hk, VmState.fillPage_other hkp, htaken.mem_other hkp]
      · intro j hj
        rw [VmState.write_index hj, VmState.fillPage_other hpage.symm, htaken.mem_other hpage.symm]
      · rw [hm, hnew, leaf_present hpresent, leaf_present hpresent']
        refine .copied e e' hshared ?_ (by rw [hphys]; exact htaken.free) ?_ ?_
        · rw [← hbits]
          exact copiedEntry_bits e htaken.aligned htaken.high
        · rw [hphys]
          exact htaken.owned hd.wf
        · rw [hphys, VmState.write_other hpage, VmState.fillPage_self, hsrc]
      · rw [hm, hnew, hreq, leaf_present hpresent']
        simp [htaken.card]

/-! ## Section 5: Tables -/

/-- How a loop ends: it returns and has cloned its entries, or halts in a table it
    could not get. -/
def Outcome (st₀ : VmState) (level n n' : Nat) (is : List (Fin 512)) (st : VmState) :
    Option VmState → Prop
  | some st' => Cloned st₀ level n n' is st st' ∧
      .table ∉ (tableRequests st₀.mem level n is).drop (freeFrames st.pmm).card
  | none => .table ∈ (tableRequests st₀.mem level n is).drop (freeFrames st.pmm).card

/-- The first entry of a table being filled. -/
theorem Target.head (ht : Target st0 st n' (i :: is)) : Target st0 st n' [i] :=
  ⟨ht.taken, ht.owned, fun j hj => ht.clear j (by simp_all)⟩

/-- The other entries, once the first one is done. -/
theorem Target.tail (ht : Target st0 st n' (i :: is)) (hi : i ∉ is)
    (hle : freeFrames st1.pmm ≤ freeFrames st.pmm) (hrest : ∀ j ∉ [i], st1.mem n' j = st.mem n' j) :
    Target st0 st1 n' is := by
  refine ⟨ht.taken, fun h => ht.owned (h.of_le hle), ?_⟩
  intro j hj
  have hne : j ∉ [i] := by
    intro hji
    obtain rfl : j = i := by simpa using hji
    exact hi hj
  rw [hrest j hne]
  exact ht.clear j (.tail _ hj)

/-- A new table is to be filled, once it is linked. -/
theorem Target.fresh (ht : Target st0 st n' [i]) (hd : During st0 st)
    (htaken : PageTaken st t st1) (e : Pte) : Target st0 (st1.write n' i e) t is := by
  have htn : t ≠ n' := fun h => ht.owned (h ▸ htaken.free)
  refine ⟨htaken.free.of_le hd.free_le, htaken.owned hd.wf, ?_⟩
  intro j _
  rw [VmState.write_other htn, htaken.mem_eq]
  simp [fill]

/-- A loop over entries, from what its body does for each. -/
theorem outcome_foldlM {body : VmState → Fin 512 → Option VmState}
    (hbody : ∀ st i, During st0 st → UserTable st0 level n [i] → Target st0 st n' [i] →
      Outcome st0 level n n' [i] st (body st i)) :
    ∀ is st, is.Nodup → During st0 st → UserTable st0 level n is → Target st0 st n' is →
      Outcome st0 level n n' is st (is.foldlM body st) := by
  intro is
  induction is with
  | nil =>
    intro st _ hd _ _
    refine ⟨Cloned.nil hd, ?_⟩
    cases level <;> simp [tableRequests]
  | cons i is ih =>
    intro st hnodup hd hu ht
    obtain ⟨hi, hnodup⟩ := List.nodup_cons.mp hnodup
    have hone : UserTable st0 level n [i] := hu.sub fun j hj => by simp_all
    have hfirst := hbody st i hd hone ht.head
    rw [List.foldlM_cons]
    cases hcall : body st i with
    | none =>
      -- the first entry already halts
      rw [hcall] at hfirst
      unfold Outcome at hfirst ⊢
      rw [tableRequests_cons, List.drop_append]
      exact List.mem_append_left _ hfirst
    | some st1 =>
      rw [hcall] at hfirst
      obtain ⟨h1, hnot⟩ := hfirst
      have hrec := ih st1 hnodup h1.during (hu.sub fun j hj => List.mem_cons_of_mem _ hj)
        (ht.tail hi h1.free_le h1.rest)
      change Outcome st0 level n n' (i :: is) st (is.foldlM body st1)
      -- the requests of the rest begin where those of the first entry ended
      have hdrop : (tableRequests st0.mem level n (i :: is)).drop (freeFrames st.pmm).card =
          (tableRequests st0.mem level n [i]).drop (freeFrames st.pmm).card ++
            (tableRequests st0.mem level n is).drop (freeFrames st1.pmm).card := by
        rw [tableRequests_cons, List.drop_append, h1.card]
      cases hrest : is.foldlM body st1 with
      | none =>
        rw [hrest] at hrec
        unfold Outcome at hrec ⊢
        rw [hdrop]
        exact List.mem_append_right _ hrec
      | some st2 =>
        rw [hrest] at hrec
        obtain ⟨h2, hnot2⟩ := hrec
        refine ⟨h1.cons h2 hi ht.owned fun k hk => hk.of_le hd.free_le, ?_⟩
        rw [hdrop, List.mem_append, not_or]
        exact ⟨hnot, hnot2⟩

/-- The body of the loops over inner tables, at `level + 1`. -/
def cloneEntry (level src dst : Nat) (st : VmState) (i : Fin 512) : Option VmState :=
  let e := st.mem src i
  if !hasFlag e vmmPresent then some st
  else if level = 0 ∧ hasFlag e vmmPse then cloneHugeEntry dst st i e
  else match allocTable st with
    | none => none
    | some (table, st) =>
      let st := st.write dst i (BitVec.ofNat 64 table ||| (e &&& 0xFFF#64))
      cloneTable level (physOf e) table st (List.finRange 512)

/-- The entry of a cloned table leads to it. -/
theorem child_clonedTable {table : Nat} (ha : pageSize ∣ table) (hlt : table < 2 ^ 52)
    (hpresent : hasFlag e vmmPresent = true) (hpse : hasFlag e vmmPse = false) :
    child (BitVec.ofNat 64 table ||| (e &&& 0xFFF#64)) = some table := by
  have hkeep : ∀ flag, 0xFFF#64 &&& flag = flag → ptePhysMask &&& flag = 0#64 →
      hasFlag (BitVec.ofNat 64 table ||| (e &&& 0xFFF#64)) flag = hasFlag e flag := by
    intro flag hlow hflag
    rw [hasFlag_link ha hlt hflag]
    unfold hasFlag
    rw [BitVec.and_assoc, hlow]
  rw [child_eq_some, hkeep _ (by decide) (by decide), hkeep _ (by decide) (by decide)]
  refine ⟨hpresent, hpse, physOf_link ha hlt ?_⟩
  rw [BitVec.and_assoc, show 0xFFF#64 &&& ptePhysMask = 0#64 by decide, BitVec.and_zero]

/-- A table taken and linked, and the table of the source cloned into it. -/
theorem Cloned.nest {c : Nat} {e' : Pte} (htaken : PageTaken st t st1) (hd : During st0 st)
    (hn' : ¬ Free st n') (hpresent : hasFlag (st0.mem n i) vmmPresent = true)
    (hc : child (st0.mem n i) = some c) (ht : child e' = some t)
    (h : Cloned st0 level c t (List.finRange 512) (st1.write n' i e') st') :
    Cloned st0 (level + 1) n n' [i] st st' := by
  have hne : n' ≠ t := fun heq => hn' (heq ▸ htaken.free)
  have hreq : (tableRequests st0.mem (level + 1) n [i]).length =
      (tableRequests st0.mem level c (List.finRange 512)).length + 1 := by
    rw [← (child_eq_some.mp hc).2.2]
    simp [tableRequests, hpresent]
  have hle : freeFrames (st1.write n' i e').pmm ≤ freeFrames st.pmm := htaken.free_le
  have hcard : (freeFrames st.pmm).card = (freeFrames (st1.write n' i e').pmm).card + 1 :=
    htaken.card
  have hn'1 : st'.mem n' = (st1.write n' i e').mem n' := h.frame n' hne fun hf => hn' (hf.of_le hle)
  have hentry : child (st'.mem n' i) = some t := by rw [hn'1, VmState.write_self, ht]
  -- below the entry, walks and lookups go on in the two subtrees
  have hsrc : ∀ j r, lookup child leaf st0.mem n (i :: j :: r) =
      lookup child leaf st0.mem c (j :: r) := by
    intro j r
    simp only [lookup, hc]
  have hdst : ∀ j r, lookup child leaf st'.mem n' (i :: j :: r) =
      lookup child leaf st'.mem t (j :: r) := by
    intro j r
    simp only [lookup, hentry]
  have hall : ∀ j : Fin 512, j ∈ List.finRange 512 := List.mem_finRange
  refine ⟨h.during, h.free_le.trans hle, ?_, ?_, ?_, ?_, ?_, ?_, ?_, ?_, ?_⟩
  · rw [h.card, hcard, hreq]
    omega
  · intro k hk hfree
    have hkt : k ≠ t := fun heq => hfree (heq ▸ htaken.free)
    rw [h.frame k hkt fun hf => hfree (hf.of_le hle), VmState.write_other hk, htaken.mem_other hkt]
  · intro j hj
    rw [hn'1, VmState.write_index (by simpa using hj), htaken.mem_other hne]
  · intro _ j hj
    obtain rfl : j = i := by simpa using hj
    exact (child_eq_some.mp hentry).2.1
  · intro j q b hj hq hwalk
    obtain rfl : j = i := by simpa using hj
    simp only [walk, hentry, Option.bind_some] at hwalk
    cases q with
    | nil =>
      cases hwalk
      exact ⟨htaken.free, fun hf => htaken.owned hd.wf (hf.of_le h.free_le)⟩
    | cons a r =>
      obtain ⟨hfree, howned⟩ := h.nodes a r b (hall a) (by simpa using hq) hwalk
      exact ⟨hfree.of_le hle, howned⟩
  · intro j q hj hq
    obtain rfl : j = i := by simpa using hj
    obtain ⟨a, r, rfl⟩ := List.exists_cons_of_length_eq_add_one hq
    rw [hsrc, hdst]
    exact (h.leaves a r (hall a) (by simpa using hq)).mono hle (le_refl _) fun _ _ _ => rfl
  · intro j k p q e e1 hj hk hp hq hlp hlq hfree heq
    obtain rfl : j = i := by simpa using hj
    obtain rfl : k = j := by simpa using hk
    obtain ⟨a, p, rfl⟩ := List.exists_cons_of_length_eq_add_one hp
    obtain ⟨b, q, rfl⟩ := List.exists_cons_of_length_eq_add_one hq
    have hp' : p.length = level := by simpa using hp
    rw [hdst] at hlp hlq
    have hfree1 := (h.copied_page (hall a) hp' hlp (hfree.of_le hd.free_le)).1
    rw [h.inj a b p q e e1 (hall a) (hall b) hp' (by simpa using hq) hlp hlq hfree1 heq]
  · intro hlen j q hj hq hsome
    obtain rfl : j = i := by simpa using hj
    obtain ⟨a, r, rfl⟩ := List.exists_cons_of_length_eq_add_one hq
    rw [hsrc] at hsome
    rw [hdst]
    exact h.complete (by omega) a r (hall a) (by simpa using hq) hsome
  intro hlt
  obtain ⟨a, r, _, hr, hsome, hnone⟩ := h.short (by omega)
  exact ⟨i, a :: r, by simp, by simpa using hr, by rw [hsrc]; exact hsome,
    by rw [hdst]; exact hnone⟩

/-- A lookup that begins at an absent entry. -/
theorem lookup_absent (q : List (Fin 512)) (h : hasFlag (m n i) vmmPresent = false) :
    lookup child leaf m n (i :: q) = none := by
  cases q with
  | nil => exact leaf_absent h 0
  | cons j r => simp only [lookup, child_absent h, leaf_absent h]

/-- An inner entry that is absent leads nowhere in the clone either. -/
theorem Cloned.absent (hd : During st0 st) (hsrc : hasFlag (st0.mem n i) vmmPresent = false)
    (hdst : st.mem n' i = 0#64) : Cloned st0 (level + 1) n n' [i] st st := by
  have hreq : tableRequests st0.mem (level + 1) n [i] = [] := by simp [tableRequests, hsrc]
  have hzero : hasFlag (st.mem n' i) vmmPresent = false := by rw [hdst, hasFlag_zero]
  refine ⟨hd, le_refl _, by simp [hreq], fun _ _ _ => rfl, fun _ _ => rfl, ?_, ?_, ?_, ?_, ?_, ?_⟩
  · intro _ j hj
    obtain rfl : j = i := by simpa using hj
    rw [hdst, hasFlag_zero]
  · intro j q c hj _ hwalk
    obtain rfl : j = i := by simpa using hj
    simp [walk, child_absent hzero] at hwalk
  · intro j q hj _
    obtain rfl : j = i := by simpa using hj
    rw [lookup_absent _ hsrc, lookup_absent _ hzero]
    exact .absent
  · intro j k p q e e' hj _ _ _ hl
    obtain rfl : j = i := by simpa using hj
    rw [lookup_absent _ hzero] at hl
    cases hl
  · intro _ j q hj _ hsome
    obtain rfl : j = i := by simpa using hj
    simp [lookup_absent _ hsrc] at hsome
  · intro hlt
    simp [hreq] at hlt

/-- **The body of the outer loops**, given what the loop it runs does. -/
theorem cloneEntry_spec
    (hsub : ∀ n n' st, During st0 st → UserTable st0 level n (List.finRange 512) →
      Target st0 st n' (List.finRange 512) →
      Outcome st0 level n n' (List.finRange 512) st (cloneTable level n n' st (List.finRange 512)))
    (hd : During st0 st) (hu : UserTable st0 (level + 1) n [i]) (ht : Target st0 st n' [i]) :
    Outcome st0 (level + 1) n n' [i] st (cloneEntry level n n' st i) := by
  have hread : st.mem n i = st0.mem n i := by rw [hd.kept n hu.not_free]
  unfold cloneEntry
  rw [hread]
  cases hpresent : hasFlag (st0.mem n i) vmmPresent with
  | false =>
    simp only [hpresent, Bool.not_false, if_true]
    refine ⟨Cloned.absent hd hpresent (ht.clear i (by simp)), ?_⟩
    simp [tableRequests, hpresent]
  | true =>
    obtain ⟨hpse, hbelow⟩ := hu.2 i (by simp) hpresent
    have hreq : tableRequests st0.mem (level + 1) n [i] = .table ::
        tableRequests st0.mem level (physOf (st0.mem n i)) (List.finRange 512) := by
      simp [tableRequests, hpresent]
    simp only [hpresent, hpse, Bool.not_true, Bool.false_eq_true, if_false, and_false, allocTable]
    rcases allocPage_cases hd.wf with ⟨heq, hfree⟩ | ⟨t, st1, heq, hne, htaken⟩
    · -- no frame is left for the table
      simp only [heq, if_true]
      change Request.table ∈ (tableRequests st0.mem (level + 1) n [i]).drop _
      rw [hreq, hfree]
      exact .head _
    simp only [heq, hne, if_false]
    have hlink := child_clonedTable htaken.aligned htaken.high hpresent hpse
    generalize BitVec.ofNat 64 t ||| (st0.mem n i &&& 0xFFF#64) = e' at hlink ⊢
    have hd1 : During st0 (st1.write n' i e') := (hd.taken htaken).write ht.taken
    have hrec := hsub _ t _ hd1 hbelow (ht.fresh hd htaken e')
    have hdrop : (tableRequests st0.mem (level + 1) n [i]).drop (freeFrames st.pmm).card =
        (tableRequests st0.mem level (physOf (st0.mem n i)) (List.finRange 512)).drop
          (freeFrames (st1.write n' i e').pmm).card := by
      rw [hreq, htaken.card]
      rfl
    cases hcall : cloneTable level (physOf (st0.mem n i)) t (st1.write n' i e')
        (List.finRange 512) with
    | none =>
      rw [hcall] at hrec
      unfold Outcome at hrec ⊢
      rw [hdrop]
      exact hrec
    | some st' =>
      rw [hcall] at hrec
      refine ⟨Cloned.nest htaken hd ht.owned hpresent
        (child_eq_some.mpr ⟨hpresent, hpse, rfl⟩) hlink hrec.1, ?_⟩
      rw [hdrop]
      exact hrec.2

/-- **The loops of `vmm_clone_pagemap`**, at every level. -/
theorem cloneTable_spec (level : Nat) :
    ∀ n n' st is, is.Nodup → During st0 st → UserTable st0 level n is → Target st0 st n' is →
      Outcome st0 level n n' is st (cloneTable level n n' st is) := by
  induction level with
  | zero =>
    intro n n' st is hnodup hd hu ht
    refine outcome_foldlM ?_ is st hnodup hd hu ht
    intro st i hd hu ht
    obtain ⟨st', hcall, hcloned⟩ := clonePageEntry_spec hd hu ht
    rw [hcall]
    refine ⟨hcloned, ?_⟩
    -- a page table asks for no table
    intro hmem
    have hpage := List.mem_of_mem_drop hmem
    simp [tableRequests, pageRequests] at hpage
  | succ level ih =>
    intro n n' st is hnodup hd hu ht
    refine outcome_foldlM ?_ is st hnodup hd hu ht
    intro st i hd hu ht
    exact cloneEntry_spec (fun n n' st hd hu ht => ih n n' st _ (List.nodup_finRange 512) hd hu ht)
      hd hu ht

end Cervus.Vmm
