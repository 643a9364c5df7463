import Cervus.Memory.PmmRuns
import Cervus.Memory.VmmClone

/-! # The address space of a forked task

    `vmm_clone_pagemap` on a pagemap that was created by `vmm_create_pagemap` and
    filled by `vmm_map_page` (`Built`). The clone is faithful, in what
    `vmm_virt_to_phys` and `vmm_get_page_flags` report and in the contents of its
    pages, unless the frames run out at a data page and no table is asked for any
    more: then the call returns a pagemap that lacks pages. -/

namespace Cervus.Vmm

open Cervus.Pmm Radix List Option

/-! ## Section 1: New pagemaps -/

variable {pml4 n map src dst : Nat} {i : Fin 512} {st st' st₁ : VmState} {m : Nat → Fin 512 → Pte}
  {v : BitVec 64} {is : List (Fin 512)} (pages : Fin 64)

/-- The loop that copies the kernel's entries. -/
theorem copyLoop_mem : ∀ (is : List (Fin 512)) (st : VmState), st.kernelPml4 ≠ pml4 →
      (is.foldl (fun st i => st.write pml4 i (st.mem st.kernelPml4 i)) st).mem = fun n i =>
        if n = pml4 ∧ i ∈ is then st.mem st.kernelPml4 i else st.mem n i := by
  intro is
  induction is with
  | nil =>
    intro st _
    simp
  | cons j is ih =>
    intro st hne
    rw [foldl_cons, ih (st.write pml4 j (st.mem st.kernelPml4 j)) hne]
    funext n i
    have hkernel : (st.write pml4 j (st.mem st.kernelPml4 j)).mem st.kernelPml4 =
        st.mem st.kernelPml4 := VmState.write_other hne
    change (if n = pml4 ∧ i ∈ is then
      (st.write pml4 j (st.mem st.kernelPml4 j)).mem st.kernelPml4 i else _) = _
    rw [hkernel]
    by_cases hn : n = pml4
    · subst hn
      by_cases hi : i ∈ is
      · simp [hi]
      by_cases hij : i = j
      · subst hij
        simp [hi, VmState.write_self]
      · simp [hi, hij, VmState.write_index hij]
    · simp [hn, VmState.write_other hn]

theorem mem_kernelHalf : i ∈ kernelHalf ↔ 256 ≤ i.val := by
  simp [kernelHalf]

theorem mem_userHalf : i ∈ userHalf ↔ i.val < 256 := by
  simp [userHalf]

theorem nodup_userHalf : userHalf.Nodup := (nodup_finRange 512).filter _

-- from here on the 256 indices are only known by these lemmas
attribute [local irreducible] userHalf kernelHalf

theorem copyKernelHalf_mem (st : VmState) (pml4 : Nat) (h : st.kernelPml4 ≠ pml4) :
    (copyKernelHalf st pml4).mem = fun n i =>
      if n = pml4 ∧ 256 ≤ i.val then st.mem st.kernelPml4 i else st.mem n i := by
  unfold copyKernelHalf
  rw [copyLoop_mem _ st h]
  simp only [mem_kernelHalf]

theorem copyKernelHalf_pmm (st : VmState) (pml4 : Nat) : (copyKernelHalf st pml4).pmm = st.pmm := by
  have hloop : ∀ (is : List (Fin 512)) (st : VmState),
      (is.foldl (fun st i => st.write pml4 i (st.mem st.kernelPml4 i)) st).pmm = st.pmm := by
    intro is
    induction is with
    | nil => exact fun _ => rfl
    | cons i is ih => exact fun st => ih _
  apply hloop

/-- The entries of the user half are not written. -/
theorem copyKernelHalf_user (h : n ≠ pml4 ∨ i.val < 256) :
    (copyKernelHalf st pml4).mem n i = st.mem n i := by
  have hloop : ∀ (is : List (Fin 512)) (st : VmState), (∀ j ∈ is, 256 ≤ j.val) →
      (is.foldl (fun st i => st.write pml4 i (st.mem st.kernelPml4 i)) st).mem n i =
        st.mem n i := by
    intro is
    induction is with
    | nil => exact fun _ _ => rfl
    | cons j is ih =>
      intro st hall
      rw [foldl_cons, ih _ fun k hk => hall k (.tail _ hk)]
      apply set_of_ne
      intro hn hij
      have hj := hall j (.head _)
      rcases h with h | h
      · exact h hn
      · omega
  apply hloop
  intro j hj
  exact mem_kernelHalf.mp hj

/-- A `vmm_create_pagemap` that returns a pagemap has taken two pages, and copied the
    kernel's entries to the second one. -/
theorem vmmCreatePagemap_taken (hwf : Wf st.pmm)
    (hcall : vmmCreatePagemap st = some ((map, pml4), st')) (hmap : map ≠ 0) :
    ∃ st₁ st2, PageTaken st map st₁ ∧ pml4 ≠ 0 ∧ PageTaken st₁ pml4 st2 ∧
      st' = copyKernelHalf st2 pml4 := by
  unfold vmmCreatePagemap at hcall
  rcases allocPage_cases hwf with ⟨heq, _⟩ | ⟨map1, st₁, heq, hne, ht1⟩
  · simp only [heq, if_true] at hcall
    cases hcall
    exact absurd rfl hmap
  simp only [heq, hne, if_false, allocTable] at hcall
  rcases allocPage_cases ht1.wf with ⟨heq2, _⟩ | ⟨pml41, st2, heq2, hne2, ht2⟩
  · simp [heq2] at hcall
  simp only [heq2, hne2, if_false] at hcall
  cases hcall
  exact ⟨st₁, st2, ht1, hne2, ht2, rfl⟩

/-- Its upper half is the kernel's. -/
theorem vmmCreatePagemap_upper (hwf : Wf st.pmm) (hkernel : ¬ Free st st.kernelPml4)
    (hcall : vmmCreatePagemap st = some ((map, pml4), st')) (hmap : map ≠ 0) (i : Fin 512)
    (hi : 256 ≤ i.val) : st'.mem pml4 i = st.mem st.kernelPml4 i := by
  obtain ⟨st₁, st2, ht1, _, ht2, rfl⟩ := vmmCreatePagemap_taken hwf hcall hmap
  have hk1 : st.kernelPml4 ≠ map := fun heq => hkernel (heq ▸ ht1.free)
  have hk2 : st.kernelPml4 ≠ pml4 := fun heq => hkernel (heq ▸ ht2.free.of_le ht1.free_le)
  have hsame : st2.kernelPml4 = st.kernelPml4 := by rw [ht2.kernel, ht1.kernel]
  rw [copyKernelHalf_mem st2 pml4 (by rw [hsame]; exact hk2)]
  simp only [hi, and_self, if_true, hsame]
  rw [ht2.mem_other hk2, ht1.mem_other hk1]

/-- What a `vmm_create_pagemap` has done: two frames are taken for a well-formed
    pagemap whose user half is empty. -/
structure Created (st : VmState) (pml4 : Nat) (st' : VmState) : Prop where
  wf      : PagemapOk st' pml4
  free_le : freeFrames st'.pmm ≤ freeFrames st.pmm
  card    : (freeFrames st.pmm).card = (freeFrames st'.pmm).card + 2
  empty   : ∀ i ∈ userHalf, hasFlag (st'.mem pml4 i) vmmPresent = false

/-- **`vmm_create_pagemap`** -/
theorem vmmCreatePagemap_spec (h : PagemapOk st st.kernelPml4)
    (hcall : vmmCreatePagemap st = some ((map, pml4), st')) (hmap : map ≠ 0) :
    Created st pml4 st' := by
  have hhigh := vmmCreatePagemap_upper h.pmm (h.allocated [] _ (by simp) rfl) hcall hmap
  obtain ⟨st₁, st2, ht1, hne2, ht2, rfl⟩ := vmmCreatePagemap_taken h.pmm hcall hmap
  have hfree : Free st pml4 := ht2.free.of_le ht1.free_le
  -- the kernel's tables are other pages than the two new ones
  have hold : ∀ p n, p.length ≤ 3 → walk child st.mem st.kernelPml4 p = some n →
      n ≠ pml4 ∧ st2.mem n = st.mem n := by
    intro p n hp hw
    have hnot := h.allocated p n hp hw
    have hn1 : n ≠ map := fun heq => hnot (heq ▸ ht1.free)
    have hn2 : n ≠ pml4 := fun heq => hnot (heq ▸ hfree)
    exact ⟨hn2, by rw [ht2.mem_other hn2, ht1.mem_other hn1]⟩
  have hroot := hold [] st.kernelPml4 (by simp) rfl
  have hkernel : st2.kernelPml4 = st.kernelPml4 := by rw [ht2.kernel, ht1.kernel]
  have hmem := copyKernelHalf_mem st2 pml4 (by rw [hkernel]; exact hroot.1)
  generalize copyKernelHalf_pmm st2 pml4 = hpmm
  generalize copyKernelHalf st2 pml4 = st' at hmem hpmm hhigh
  have hlow : ∀ i : Fin 512, i.val < 256 → hasFlag (st'.mem pml4 i) vmmPresent = false := by
    intro i hi
    rw [hmem, ht2.mem_eq]
    simp only [show ¬ 256 ≤ i.val by omega, and_false, if_false, fill, if_true]
    exact hasFlag_zero _
  -- below the top table the new pagemap walks through the kernel's tables
  have hwalk : ∀ i q n, q.length ≤ 2 → walk child st'.mem pml4 (i :: q) = some n →
      walk child st.mem st.kernelPml4 (i :: q) = some n := by
    intro i q n hq hw
    by_cases hi : 256 ≤ i.val
    · simp only [walk, hhigh i hi] at hw ⊢
      cases hc : child (st.mem st.kernelPml4 i) with
      | none => simp [hc] at hw
      | some c =>
        simp only [hc, bind_some] at hw ⊢
        rw [← hw]
        symm
        apply walk_congr
        intro p j r b hsplit hb
        have hfull : walk child st.mem st.kernelPml4 (i :: p) = some b := by
          simp only [walk, hc, bind_some, hb]
        have hlen : (i :: p).length ≤ 3 := by
          rw [hsplit] at hq
          simp at hq ⊢
          omega
        obtain ⟨hb1, hb2⟩ := hold (i :: p) b hlen hfull
        simp [hmem, hb1, hb2]
    · simp [walk, child_absent (hlow i (by omega))] at hw
  refine ⟨⟨?_, hne2, ht2.aligned, ?_, ?_, ?_⟩, ?_, ?_, ?_⟩
  · rw [hpmm]
    exact ht2.wf
  · -- the top table is new, and the kernel's tables are distinct
    have hnew : ∀ i q, q.length ≤ 2 → walk child st'.mem pml4 (i :: q) ≠ some pml4 := by
      intro i q hq hw
      exact (hold (i :: q) pml4 (Nat.succ_le_succ hq) (hwalk i q pml4 hq hw)).1 rfl
    intro p q n hp hq hwp hwq
    cases p with
    | nil =>
      cases q with
      | nil => rfl
      | cons j q =>
        cases hwp
        exact absurd hwq (hnew j q (Nat.le_of_succ_le_succ hq))
    | cons i p =>
      cases q with
      | nil =>
        cases hwq
        exact absurd hwp (hnew i p (Nat.le_of_succ_le_succ hp))
      | cons j q =>
        exact h.distinct _ _ n hp hq (hwalk i p n (Nat.le_of_succ_le_succ hp) hwp)
          (hwalk j q n (Nat.le_of_succ_le_succ hq) hwq)
  · intro i hi
    by_cases hhi : 256 ≤ i.val
    · rw [hhigh i hhi] at hi ⊢
      exact h.top i hi
    · simp [hlow i (by omega)] at hi
  · intro p n hp hw
    rw [hpmm]
    cases p with
    | nil =>
      cases hw
      exact ht2.owned ht1.wf
    | cons i q =>
      have hnot := h.allocated _ n hp (hwalk i q n (Nat.le_of_succ_le_succ hp) hw)
      exact fun hf => hnot (Multiset.mem_of_le (ht2.free_le.trans ht1.free_le) hf)
  · rw [hpmm]
    exact ht2.free_le.trans ht1.free_le
  · rw [hpmm, ht1.card, ht2.card]
  · intro i hi
    exact hlow i (mem_userHalf.mp hi)

/-- It returns a pagemap as long as two frames are free. -/
theorem vmmCreatePagemap_returns (hwf : Wf st.pmm) (hcard : 2 ≤ (freeFrames st.pmm).card) :
    ∃ map pml4 st', vmmCreatePagemap st = some ((map, pml4), st') ∧ map ≠ 0 := by
  unfold vmmCreatePagemap
  rcases allocPage_cases hwf with ⟨_, hfree⟩ | ⟨map, st₁, heq, hne, ht1⟩
  · simp [hfree] at hcard
  have hcard1 := ht1.card
  rcases allocPage_cases ht1.wf with ⟨_, hfree⟩ | ⟨pml4, st2, heq2, hne2, _⟩
  · rw [hfree] at hcard1
    simp at hcard1
    omega
  refine ⟨map, pml4, copyKernelHalf st2 pml4, ?_, hne⟩
  simp only [heq, hne, if_false, allocTable, heq2, hne2]

/-! ## Section 2: Pagemaps built by mapping -/

/-- A user address: the top table's index is in the lower half. -/
def IsUser (virt : BitVec 64) : Prop := pml4Index virt ∈ userHalf

/-- The user mappings are pages at or above 1 MiB that are not free. -/
def UserOk (st : VmState) (root : Nat) : Prop :=
  ∀ i q k e, i ∈ userHalf → q.length = 3 →
    Radix.lookup child leaf st.mem root (i :: q) = some (k, e) →
    k = 0 ∧ freeMinPhys ≤ physOf e ∧ ¬ Free st (physOf e)

/-- A pagemap made by `vmm_create_pagemap` and mapped by `vmm_map_page`, with frames
    at or above 1 MiB that are not free. In between anything may happen that leaves it
    a well-formed pagemap with the same user mappings and does not free their frames:
    others use the allocator, tasks write their pages, the kernel maps its own half. -/
inductive Built : VmState → Nat → Prop where
  | create {st st' : VmState} {map pml4 : Nat} : PagemapOk st st.kernelPml4 →
      vmmCreatePagemap st = some ((map, pml4), st') → map ≠ 0 → Built st' pml4
  | map {st st' : VmState} {pml4 : Nat} {virt phys : BitVec 64} {flags : Pte} {ok : Bool} :
      Built st pml4 → vmmMapPage st pml4 virt phys flags = some (ok, st') →
      freeMinPhys ≤ physOf (phys ||| flags) → ¬ Free st' (physOf (phys ||| flags)) →
      Built st' pml4
  | other {st st' : VmState} {pml4 : Nat} : Built st pml4 → PagemapOk st' pml4 →
      (∀ i q, i ∈ userHalf → q.length = 3 → Radix.lookup child leaf st'.mem pml4 (i :: q) =
        Radix.lookup child leaf st.mem pml4 (i :: q)) →
      (∀ i q k e, i ∈ userHalf → q.length = 3 →
        Radix.lookup child leaf st.mem pml4 (i :: q) = some (k, e) → ¬ Free st' (physOf e)) →
      Built st' pml4

theorem physOf_pageEntry (st : VmState) (phys : BitVec 64) (flags : Pte) :
    physOf (pageEntry st phys flags) = physOf (phys ||| flags) := by
  unfold physOf
  rw [pageEntry_phys]

theorem Built.ok (h : Built st pml4) : PagemapOk st pml4 ∧ UserOk st pml4 := by
  induction h with
  | create hk hcall hmap =>
    have hcreated := vmmCreatePagemap_spec hk hcall hmap
    refine ⟨hcreated.wf, ?_⟩
    intro i q k e hi _ hl
    rw [lookup_absent q (hcreated.empty i hi)] at hl
    cases hl
  | @map st st' pml4 virt phys flags ok _ hcall hmin hfree ih =>
    have hmapped := vmmMapPage_spec ih.1 hcall
    refine ⟨hmapped.wf, ?_⟩
    intro i q k e hi hq hl
    by_cases hown : ok = true ∧ i :: q = path virt
    · rw [hown.2, hmapped.own hown.1] at hl
      cases hl
      rw [physOf_pageEntry]
      exact ⟨rfl, hmin, hfree⟩
    · rw [hmapped.others _ (by simp [hq]) fun hok heq => hown ⟨hok, heq⟩] at hl
      obtain ⟨hk, hm, hf⟩ := ih.2 i q k e hi hq hl
      exact ⟨hk, hm, fun h => hf (h.of_le hmapped.free_le)⟩
  | other _ hok hsame hfree ih =>
    refine ⟨hok, ?_⟩
    intro i q k e hi hq hl
    rw [hsame i q hi hq] at hl
    obtain ⟨hk, hm, _⟩ := ih.2 i q k e hi hq hl
    exact ⟨hk, hm, hfree i q k e hi hq hl⟩

/-- Tables whose lookups are pages only have no large pages. The depth of the leaves
    is told from the lookups, so this is about the tables below the top one. -/
theorem userTable_of_lookup (level : Nat) (hlevel : level ≤ 2) :
    ∀ n, (∀ q c, q.length ≤ level → walk child st.mem n q = some c → ¬ Free st c) →
      (∀ i q k e, q.length = level → lookup child leaf st.mem n (i :: q) = some (k, e) →
        k = 0 ∧ freeMinPhys ≤ physOf e ∧ ¬ Free st (physOf e)) →
      UserTable st level n (finRange 512) := by
  induction level with
  | zero =>
    intro n hnodes hleaves
    refine ⟨hnodes [] n (by simp) rfl, ?_⟩
    intro i _ hp
    exact (hleaves i [] 0 (st.mem n i) rfl (leaf_present hp)).2
  | succ level ih =>
    intro n hnodes hleaves
    refine ⟨hnodes [] n (by simp) rfl, ?_⟩
    intro i _ hp
    have hpse : hasFlag (st.mem n i) vmmPse = false := by
      -- a large page would be found above the page tables
      by_contra hpse
      have hchild : child (st.mem n i) = none := by simp [child, hp, hpse]
      have hleaf : leaf (level + 1) (st.mem n i) = some (level + 1, st.mem n i) := by
        rcases (show level = 0 ∨ level = 1 by omega) with rfl | rfl <;> simp [leaf, hp, hpse]
      have hl : lookup child leaf st.mem n (i :: replicate (level + 1) 0) =
          some (level + 1, st.mem n i) := by
        simp only [replicate_succ, Radix.lookup, hchild, length_replicate, hleaf]
      have := (hleaves i _ _ _ (by simp) hl).1
      omega
    refine ⟨hpse, ?_⟩
    have hchild : child (st.mem n i) = some (physOf (st.mem n i)) :=
      child_eq_some.mpr ⟨hp, hpse, rfl⟩
    apply ih (by omega)
    · intro q c hq hw
      apply hnodes (i :: q) c (by simpa using hq)
      simp only [walk, hchild, bind_some, hw]
    · intro j q k e hq hl
      apply hleaves i (j :: q) k e (by simpa using hq)
      simp only [Radix.lookup, hchild, hl]

/-- The user half of a built pagemap. -/
theorem Built.userTable (h : Built st pml4) : UserTable st 3 pml4 userHalf := by
  obtain ⟨hok, huser⟩ := h.ok
  refine ⟨hok.allocated [] pml4 (by simp) rfl, ?_⟩
  intro i hi hp
  refine ⟨hok.top i hp, ?_⟩
  have hchild : child (st.mem pml4 i) = some (physOf (st.mem pml4 i)) :=
    child_eq_some.mpr ⟨hp, hok.top i hp, rfl⟩
  apply userTable_of_lookup 2 (le_refl _)
  · intro q c hq hw
    apply hok.allocated (i :: q) c (Nat.succ_le_succ hq)
    simp only [walk, hchild, bind_some, hw]
  · intro j q k e hq hl
    apply huser i (j :: q) k e hi (by simpa using hq)
    simp only [Radix.lookup, hchild, hl]

/-! ## Section 3: Faithful copies -/

/-- The address of the page an address lies in. -/
def pageOf (addr : BitVec 64) : Nat := addr.toNat / pageSize * pageSize

/-- The user half of pagemap `dst` in `st'` is a copy of that of `src` in `st`. -/
structure FaithfulCopy (st : VmState) (src : Nat) (st' : VmState) (dst : Nat) : Prop where
  /-- The same addresses are mapped, with the same flags. -/
  flags    : ∀ v, IsUser v → vmmGetPageFlags st' dst v = vmmGetPageFlags st src v
  /-- Shared pages are the same frames. -/
  shared   : ∀ v f, IsUser v → vmmGetPageFlags st src v = some f → hasFlag f vmmShared = true →
    vmmVirtToPhys st' dst v = vmmVirtToPhys st src v
  /-- The others are pages that were free and no longer are, with equal contents. -/
  fresh    : ∀ v f, IsUser v → vmmGetPageFlags st src v = some f → hasFlag f vmmShared = false →
    ∃ a a', vmmVirtToPhys st src v = some a ∧ vmmVirtToPhys st' dst v = some a' ∧
      Free st (pageOf a') ∧ ¬ Free st' (pageOf a') ∧ st'.mem (pageOf a') = st.mem (pageOf a)
  /-- They are no frames of the source, -/
  apart    : ∀ v w f a a', IsUser v → IsUser w → vmmGetPageFlags st src v = some f →
    hasFlag f vmmShared = false → vmmVirtToPhys st src w = some a →
    vmmVirtToPhys st' dst v = some a' → pageOf a' ≠ pageOf a
  /-- and different pages have different ones. -/
  distinct : ∀ v w f g a b, IsUser v → IsUser w → pageNumber v ≠ pageNumber w →
    vmmGetPageFlags st src v = some f → hasFlag f vmmShared = false →
    vmmGetPageFlags st src w = some g → hasFlag g vmmShared = false →
    vmmVirtToPhys st' dst v = some a → vmmVirtToPhys st' dst w = some b → pageOf a ≠ pageOf b

/-- The page that a 4 KiB mapping leads to. -/
theorem pageOf_resolve (virt : BitVec 64) (e : Pte) : pageOf (resolve virt (0, e)) = physOf e := by
  have hdisj : (e &&& ptePhysMask) &&& (virt &&& 0xFFF#64) = 0#64 := by
    rw [BitVec.and_assoc, BitVec.and_comm virt, ← BitVec.and_assoc ptePhysMask,
      show ptePhysMask &&& 0xFFF#64 = 0#64 by decide, BitVec.zero_and, BitVec.and_zero]
  have hoff : (virt &&& 0xFFF#64).toNat < 2 ^ 12 := by
    exact Nat.lt_of_le_of_lt Nat.and_le_right (by decide)
  have hal := physOf_aligned e
  have hphys : (e &&& ptePhysMask).toNat = physOf e := rfl
  rw [resolve_page, ← BitVec.add_eq_or_of_and_eq_zero _ _ hdisj]
  unfold pageOf
  rw [BitVec.toNat_add, hphys]
  unfold pageSize at *
  omega

theorem hasFlag_shared_bits (e : Pte) :
    hasFlag (e &&& flagBits) vmmShared = hasFlag e vmmShared := by
  unfold hasFlag
  rw [BitVec.and_assoc, show flagBits &&& vmmShared = vmmShared by decide]

/-- Every list of four indices is the path of an address. -/
theorem exists_path (a b c d : Fin 512) : ∃ virt, path virt = [a, b, c, d] := by
  have hlt : a.val * 2 ^ 39 + b.val * 2 ^ 30 + c.val * 2 ^ 21 + d.val * 2 ^ 12 < 2 ^ 64 := by
    omega
  refine ⟨BitVec.ofNat 64 (a.val * 2 ^ 39 + b.val * 2 ^ 30 + c.val * 2 ^ 21 + d.val * 2 ^ 12), ?_⟩
  have hidx : ∀ s x, (a.val * 2 ^ 39 + b.val * 2 ^ 30 + c.val * 2 ^ 21 + d.val * 2 ^ 12) / 2 ^ s %
      2 ^ 9 = Fin.val x → tableIndex (BitVec.ofNat 64
        (a.val * 2 ^ 39 + b.val * 2 ^ 30 + c.val * 2 ^ 21 + d.val * 2 ^ 12)) s = x := by
    intro s x hx
    rw [Fin.ext_iff, tableIndex_val, BitVec.toNat_ofNat, Nat.mod_eq_of_lt hlt, hx]
  simp only [path, pml4Index, pdptIndex, pdIndex, ptIndex]
  rw [hidx 39 a (by omega), hidx 30 b (by omega), hidx 21 c (by omega), hidx 12 d (by omega)]

/-- How a user address is mapped in the source and in a clone that is complete. -/
theorem Cloned.user_cases (h : Cloned st 3 src dst userHalf st₁ st')
    (hle : (tableRequests st.mem 3 src userHalf).length ≤ (freeFrames st₁.pmm).card) (hv : IsUser v)
    {a b : Option (Nat × Pte)} (ha : lookup child leaf st.mem src (path v) = a)
    (hb : lookup child leaf st'.mem dst (path v) = b) : (a = none ∧ b = none) ∨
    (∃ e, a = some (0, e) ∧ b = some (0, e) ∧ hasFlag e vmmShared = true) ∨
    ∃ e e', a = some (0, e) ∧ b = some (0, e') ∧ hasFlag e vmmShared = false ∧
      e' &&& flagBits = e &&& flagBits ∧ Free st₁ (physOf e') ∧ ¬ Free st' (physOf e') ∧
      st'.mem (physOf e') = st.mem (physOf e) := by
  have hleaf := h.leaves (pml4Index v) [pdptIndex v, pdIndex v, ptIndex v] hv rfl
  have hcomplete := h.complete hle (pml4Index v) [pdptIndex v, pdIndex v, ptIndex v] hv rfl
  rw [show pml4Index v :: [pdptIndex v, pdIndex v, ptIndex v] = path v from rfl, ha, hb]
    at hleaf hcomplete
  cases hleaf with
  | absent => exact .inl ⟨rfl, rfl⟩
  | shared e hs _ => exact .inr (.inl ⟨e, rfl, rfl, hs⟩)
  | missing e _ => simp at hcomplete
  | copied e e' hs hbits hfree howned hmem =>
    exact .inr (.inr ⟨e, e', rfl, rfl, hs, hbits, hfree, howned, hmem⟩)

/-- The observers on a user address, in the source and in the clone. -/
theorem UserTable.observe (h : UserTable st 3 src userHalf) (hsrc : src ≠ 0) (hv : IsUser v) :
    vmmVirtToPhys st src v = (Radix.lookup child leaf st.mem src (path v)).map (resolve v) ∧
    vmmGetPageFlags st src v =
      (Radix.lookup child leaf st.mem src (path v)).map fun found => found.2 &&& flagBits :=
  ⟨vmmVirtToPhys_eq hsrc fun hp => (h.2 _ hv hp).1,
    vmmGetPageFlags_eq hsrc fun hp => (h.2 _ hv hp).1⟩

section

variable (h : Cloned st 3 src dst userHalf st₁ st')
include h

theorem Cloned.observe (hdst : dst ≠ 0) (hv : IsUser v) :
    vmmVirtToPhys st' dst v = (lookup child leaf st'.mem dst (path v)).map (resolve v) ∧
    vmmGetPageFlags st' dst v =
      (lookup child leaf st'.mem dst (path v)).map fun found => found.2 &&& flagBits :=
  ⟨vmmVirtToPhys_eq hdst fun _ => h.noLarge (by decide) _ hv,
    vmmGetPageFlags_eq hdst fun _ => h.noLarge (by decide) _ hv⟩

/-- With a frame for every request, the loops make a faithful copy. -/
theorem Cloned.faithful (hu : UserTable st 3 src userHalf) (hsrc : src ≠ 0) (hdst : dst ≠ 0)
    (hfree : freeFrames st₁.pmm ≤ freeFrames st.pmm)
    (hle : (tableRequests st.mem 3 src userHalf).length ≤ (freeFrames st₁.pmm).card) :
    FaithfulCopy st src st' dst := by
  -- a private page of the source has a copy, and the source's page is not free
  have hprivate : ∀ v f, IsUser v → vmmGetPageFlags st src v = some f →
      hasFlag f vmmShared = false → ∃ e e', lookup child leaf st.mem src (path v) = some (0, e) ∧
        lookup child leaf st'.mem dst (path v) = some (0, e') ∧
        Free st₁ (physOf e') ∧ ¬ Free st' (physOf e') ∧
        st'.mem (physOf e') = st.mem (physOf e) := by
    intro v f hv hf hns
    rw [(hu.observe hsrc hv).2] at hf
    rcases h.user_cases hle hv rfl rfl with ⟨hs, _⟩ | ⟨e, hs, _, hshared⟩ |
      ⟨e, e', hs, hd, _, _, hfr, how, hmem⟩
    · simp [hs] at hf
    · simp only [hs, map_some, some.injEq] at hf
      rw [← hf, hasFlag_shared_bits, hshared] at hns
      cases hns
    · exact ⟨e, e', hs, hd, hfr, how, hmem⟩
  refine ⟨?_, ?_, ?_, ?_, ?_⟩
  · intro v hv
    rw [(h.observe hdst hv).2, (hu.observe hsrc hv).2]
    rcases h.user_cases hle hv rfl rfl with ⟨hs, hd⟩ | ⟨e, hs, hd, _⟩ | ⟨e, e', hs, hd, _, hbits, _⟩
    · rw [hs, hd]
    · rw [hs, hd]
    · rw [hs, hd, map_some, map_some, hbits]
  · intro v f hv hf hshared
    rw [(hu.observe hsrc hv).2] at hf
    rw [(h.observe hdst hv).1, (hu.observe hsrc hv).1]
    rcases h.user_cases hle hv rfl rfl with ⟨hs, hd⟩ | ⟨e, hs, hd, _⟩ | ⟨e, e', hs, hd, hns, _⟩
    · rw [hs, hd]
    · rw [hs, hd]
    · simp only [hs, map_some, some.injEq] at hf
      rw [← hf, hasFlag_shared_bits, hns] at hshared
      cases hshared
  · intro v f hv hf hns
    obtain ⟨e, e', hs, hd, hfr, how, hmem⟩ := hprivate v f hv hf hns
    refine ⟨resolve v (0, e), resolve v (0, e'), ?_, ?_, ?_⟩
    · rw [(hu.observe hsrc hv).1, hs, map_some]
    · rw [(h.observe hdst hv).1, hd, map_some]
    · rw [pageOf_resolve, pageOf_resolve]
      exact ⟨hfr.of_le hfree, how, hmem⟩
  · intro v w f a a' hv hw hf hns ha ha'
    obtain ⟨e, e', _, hd, hfr, _, _⟩ := hprivate v f hv hf hns
    rw [(h.observe hdst hv).1, hd, map_some, some.injEq] at ha'
    rw [(hu.observe hsrc hw).1, map_eq_some_iff] at ha
    obtain ⟨⟨k, e1⟩, hs1, ha⟩ := ha
    obtain ⟨rfl, _, hnot⟩ := hu.lookup hw rfl hs1
    rw [← ha', ← ha, pageOf_resolve, pageOf_resolve]
    intro heq
    rw [heq] at hfr
    exact hnot (hfr.of_le hfree)
  intro v w f g a b hv hw hne hf hns hg hnsg ha hb
  obtain ⟨e, e', _, hd, hfr, _, _⟩ := hprivate v f hv hf hns
  obtain ⟨x, x', _, hdx, _, _, _⟩ := hprivate w g hw hg hnsg
  rw [(h.observe hdst hv).1, hd, map_some, some.injEq] at ha
  rw [(h.observe hdst hw).1, hdx, map_some, some.injEq] at hb
  rw [← ha, ← hb, pageOf_resolve, pageOf_resolve]
  intro heq
  exact hne (path_eq_iff.mp (h.inj _ _ _ _ e' x' hv hw rfl rfl hd hdx hfr heq))

/-- With fewer frames, a page of the source is missing. -/
theorem Cloned.not_faithful (hu : UserTable st 3 src userHalf) (hsrc : src ≠ 0) (hdst : dst ≠ 0)
    (hlt : (freeFrames st₁.pmm).card < (tableRequests st.mem 3 src userHalf).length) :
    ∃ v, IsUser v ∧ (vmmGetPageFlags st src v).isSome ∧ vmmGetPageFlags st' dst v = none := by
  obtain ⟨i, q, hi, hq, hsome, hnone⟩ := h.short hlt
  obtain ⟨a, b, c, rfl⟩ : ∃ a b c, q = [a, b, c] := length_eq_three.mp hq
  obtain ⟨v, hpath⟩ := exists_path i a b c
  have hv : IsUser v := by
    have : pml4Index v = i := (List.cons.inj hpath).1
    rw [IsUser, this]
    exact hi
  refine ⟨v, hv, ?_, ?_⟩
  · rw [(hu.observe hsrc hv).2, hpath, isSome_map]
    exact hsome
  · rw [(h.observe hdst hv).2, hpath, hnone, map_none]

end

/-! ## Section 4: The call -/

theorem map_not_mem_tableRequests (m : Nat → Fin 512 → Pte) (level : Nat) :
    ∀ n is, .map ∉ tableRequests m level n is := by
  induction level with
  | zero =>
    intro n is
    simp [tableRequests, pageRequests]
  | succ level ih =>
    intro n is hmem
    simp only [tableRequests, mem_flatMap] at hmem
    obtain ⟨i, _, hmem⟩ := hmem
    split at hmem
    · rcases mem_cons.mp hmem with hmem | hmem
      · cases hmem
      · exact ih _ _ hmem
    · cases hmem

/-- The top table of the clone, with the kernel's half in it. -/
theorem clone_start (hwf : Wf st.pmm) {st2 : VmState} (ht1 : PageTaken st map st₁)
    (ht2 : PageTaken st₁ pml4 st2) : During st (copyKernelHalf st2 pml4) ∧
      Target st (copyKernelHalf st2 pml4) pml4 userHalf := by
  have hd : During st st2 := (During.taken ⟨hwf, le_refl _, fun _ _ => rfl⟩ ht1).taken ht2
  have hfree : Free st pml4 := ht2.free.of_le ht1.free_le
  have hpmm := copyKernelHalf_pmm st2 pml4
  refine ⟨⟨by rw [hpmm]; exact hd.wf, by rw [hpmm]; exact hd.free_le, ?_⟩, hfree, ?_, ?_⟩
  · intro n hn
    rw [← hd.kept n hn]
    funext i
    exact copyKernelHalf_user (.inl fun heq => hn (heq ▸ hfree))
  · unfold Free
    rw [hpmm]
    exact ht2.owned ht1.wf
  · intro i hi
    rw [copyKernelHalf_user (.inr (mem_userHalf.mp hi)), ht2.mem_eq]
    simp [fill]

/-- How `vmm_clone_pagemap` ends: `NULL` when no frame was free, without result when
    the frames run out before a table, else with what the loops did. -/
theorem vmmClonePagemap_spec (hwf : Wf st.pmm) (hsrc : src ≠ 0) (hu : UserTable st 3 src userHalf) :
    ((freeFrames st.pmm).card = 0 ∧ vmmClonePagemap st src = some ((0, 0), st)) ∨
    (vmmClonePagemap st src = none ∧ 0 < (freeFrames st.pmm).card ∧
      .table ∈ (cloneRequests st src).drop (freeFrames st.pmm).card) ∨
    ∃ map pml4 st₁ st', vmmClonePagemap st src = some ((map, pml4), st') ∧ map ≠ 0 ∧ pml4 ≠ 0 ∧
      (freeFrames st.pmm).card = (freeFrames st₁.pmm).card + 2 ∧
      freeFrames st₁.pmm ≤ freeFrames st.pmm ∧ Cloned st 3 src pml4 userHalf st₁ st' ∧
      .table ∉ (tableRequests st.mem 3 src userHalf).drop (freeFrames st₁.pmm).card := by
  unfold vmmClonePagemap
  rw [if_neg hsrc]
  rcases allocPage_cases hwf with ⟨heq, hfree⟩ | ⟨map, st₁, heq, hmap, ht1⟩
  · left
    simp [heq, hfree]
  right
  have hcard1 := ht1.card
  simp only [heq, hmap, if_false, allocTable]
  rcases allocPage_cases ht1.wf with ⟨heq2, hfree2⟩ | ⟨pml4, st2, heq2, hpml4, ht2⟩
  · -- no frame for the top table
    left
    rw [hfree2] at hcard1
    simp [heq2, hcard1, cloneRequests]
  have hcard2 := ht2.card
  simp only [heq2, hpml4, if_false]
  obtain ⟨hd, htarget⟩ := clone_start hwf ht1 ht2
  have hloop := cloneTable_spec 3 src pml4 _ userHalf nodup_userHalf hd hu htarget
  have hpmm := copyKernelHalf_pmm st2 pml4
  generalize copyKernelHalf st2 pml4 = st3 at hloop hpmm ⊢
  have hcard : (freeFrames st.pmm).card = (freeFrames st3.pmm).card + 2 := by
    rw [hpmm]
    omega
  cases hcall : cloneTable 3 src pml4 st3 userHalf with
  | none =>
    left
    rw [hcall] at hloop
    refine ⟨rfl, by omega, ?_⟩
    rw [hcard]
    exact hloop
  | some st' =>
    right
    rw [hcall] at hloop
    exact ⟨map, pml4, st3, st', rfl, hmap, hpml4, hcard,
      by rw [hpmm]; exact ht2.free_le.trans ht1.free_le, hloop.1, hloop.2⟩

/-- **Forking copies the whole address space, or not.** For a pagemap built by mapping,
    `vmm_clone_pagemap` never returns an unfaithful clone exactly when there is a
    frame for each of its requests, or the requests without one include a table or
    the `vmm_pagemap_t` itself (then the call halts, or returns `NULL`). -/
theorem clone_faithful_iff {st : VmState} {src : Nat} (h : Built st src) :
    (∀ map pml4 st', vmmClonePagemap st src = some ((map, pml4), st') → map ≠ 0 →
      FaithfulCopy st src st' pml4) ↔
    (cloneRequests st src).length ≤ (freeFrames st.pmm).card ∨
      ∃ r ∈ (cloneRequests st src).drop (freeFrames st.pmm).card, r ≠ .page := by
  have hok := h.ok.1
  have hu := h.userTable
  have hsrc := hok.nonnull
  rcases vmmClonePagemap_spec hok.pmm hsrc hu with ⟨hcard, hcall⟩ | ⟨hcall, _, htable⟩ |
    ⟨map, pml4, st₁, st', hcall, hmap, hpml4, hcard, hle, hcloned, hnot⟩
  · -- `NULL`
    rw [hcall, hcard]
    constructor
    · intro _
      exact .inr ⟨.map, by simp [cloneRequests], nofun⟩
    · intro _ map pml4 st' heq hmap
      cases heq
      exact absurd rfl hmap
  · -- the call halts
    rw [hcall]
    exact ⟨fun _ => .inr ⟨.table, htable, nofun⟩, nofun⟩
  have hlen : (cloneRequests st src).length =
      (tableRequests st.mem 3 src userHalf).length + 2 := by simp [cloneRequests]
  have hdrop : (cloneRequests st src).drop (freeFrames st.pmm).card =
      (tableRequests st.mem 3 src userHalf).drop (freeFrames st₁.pmm).card := by
    rw [hcard]
    rfl
  have hpages : ¬ ∃ r ∈ (cloneRequests st src).drop (freeFrames st.pmm).card, r ≠ .page := by
    rintro ⟨r, hr, hne⟩
    rw [hdrop] at hr
    cases r with
    | map => exact map_not_mem_tableRequests _ _ _ _ (mem_of_mem_drop hr)
    | table => exact hnot hr
    | page => exact hne rfl
  rw [hcall, or_iff_left hpages]
  constructor
  · intro hall
    by_contra hlt
    obtain ⟨v, hv, hsome, hnone⟩ := hcloned.not_faithful hu hsrc hpml4 (by omega)
    rw [← (hall map pml4 st' rfl hmap).flags v hv, hnone] at hsome
    cases hsome
  · intro hlt map1 pml41 st2 heq _
    cases heq
    exact hcloned.faithful hu hsrc hpml4 hle (by omega)

/-! ## Section 5: A clone that lacks a page -/

/-- A table taken for the absent entry `i` of table `n`. -/
structure NewTable (st : VmState) (n : Nat) (i : Fin 512) (t : Nat) (st' : VmState) : Prop where
  wf      : Wf st'.pmm
  free    : Free st t
  owned   : ¬ Free st' t
  free_le : freeFrames st'.pmm ≤ freeFrames st.pmm
  card    : (freeFrames st.pmm).card = (freeFrames st'.pmm).card + 1
  present : hasFlag (st'.mem n i) vmmPresent = true
  link    : physOf (st'.mem n i) = t
  clear   : ∀ j, hasFlag (st'.mem t j) vmmPresent = false
  same    : ∀ k j, k ≠ t → (k = n → j ≠ i) → st'.mem k j = st.mem k j

theorem getTable_new (flags : Pte) (hwf : Wf st.pmm) (hcard : 0 < (freeFrames st.pmm).card)
    (hn : ¬ Free st n) (habsent : hasFlag (st.mem n i) vmmPresent = false) :
    ∃ t st', getTable st n i flags = some (some t, st') ∧ NewTable st n i t st' := by
  rcases allocPage_cases hwf with ⟨_, hfree⟩ | ⟨t, st₁, heq, hne, ht⟩
  · simp [hfree] at hcard
  have hchild := child_newTable flags ht.aligned ht.high
  obtain ⟨hpresent, _, hphys⟩ := child_eq_some.mp hchild
  have htn : t ≠ n := fun h => hn (h ▸ ht.free)
  unfold getTable
  simp only [habsent, Bool.not_false, if_true, allocTable, heq, hne, if_false, VmState.write_self]
  rw [hphys]
  generalize BitVec.ofNat 64 t ||| vmmPresent ||| vmmWrite ||| (flags &&& vmmUser) = e
    at hpresent hphys ⊢
  refine ⟨t, st₁.write n i e, rfl, ?_⟩
  refine ⟨ht.wf, ht.free, ht.owned hwf, ht.free_le, ht.card, ?_, ?_, ?_, ?_⟩
  · rw [VmState.write_self, hpresent]
  · rw [VmState.write_self, hphys]
  · intro j
    rw [VmState.write_other htn, ht.mem_eq]
    simp [fill, hasFlag_zero]
  · intro k j hk hkj
    rw [← ht.mem_other hk]
    exact set_of_ne hkj

theorem flatMap_only {α : Type} {f : Fin 512 → List α} (hnodup : is.Nodup) (hi : i ∈ is)
    (h : ∀ j ∈ is, j ≠ i → f j = []) : is.flatMap f = f i := by
  induction is with
  | nil => cases hi
  | cons j is ih =>
    obtain ⟨hj, hnodup⟩ := nodup_cons.mp hnodup
    rw [flatMap_cons]
    by_cases hij : i = j
    · have hrest : is.flatMap f = [] := by
        rw [flatMap_eq_nil_iff]
        intro k hk
        apply h k (.tail _ hk)
        rintro rfl
        exact hj (hij ▸ hk)
      rw [hrest, append_nil, hij]
    rw [h j (.head _) (Ne.symm hij), nil_append]
    apply ih hnodup
    · rcases mem_cons.mp hi with heq | hi
      · exact absurd heq hij
      · exact hi
    · exact fun k hk => h k (.tail _ hk)

/-- The requests for a table whose one present entry leads to the new table. -/
theorem NewTable.requests {level t : Nat} (h : NewTable st n i t st')
    (hm : ∀ j, m n j = st'.mem n j) (hne : n ≠ t) (hnodup : is.Nodup) (hi : i ∈ is)
    (hempty : ∀ j ∈ is, hasFlag (st.mem n j) vmmPresent = false) :
    tableRequests m (level + 1) n is = .table :: tableRequests m level t (finRange 512) := by
  rw [tableRequests, flatMap_only hnodup hi]
  · rw [hm, if_pos h.present, h.link]
  · intro j hj hij
    rw [hm, h.same _ _ hne fun _ => hij]
    simp [hempty j hj]

/-- **The first page of a new pagemap**: three tables are made for it, and a clone asks
    for three tables and one page. -/
theorem vmmMapPage_first {root : Nat} {virt : BitVec 64} (phys : BitVec 64) (flags : Pte)
    (hok : PagemapOk st root) (hempty : ∀ i ∈ userHalf, hasFlag (st.mem root i) vmmPresent = false)
    (hv : IsUser virt) (hcard : 3 ≤ (freeFrames st.pmm).card) :
    ∃ st', vmmMapPage st root virt phys flags = some (true, st') ∧
      freeFrames st'.pmm ≤ freeFrames st.pmm ∧
      (freeFrames st.pmm).card = (freeFrames st'.pmm).card + 3 ∧
      tableRequests st'.mem 3 root userHalf =
        .table :: .table :: .table :: pageRequests (pageEntry st' phys flags) := by
  have hroot : ¬ Free st root := hok.allocated [] root (by simp) rfl
  obtain ⟨t1, s1, hcall1, h1⟩ := getTable_new flags hok.pmm (by omega) hroot (hempty _ hv)
  have hcard1 := h1.card
  obtain ⟨t2, s2, hcall2, h2⟩ := getTable_new flags h1.wf (by omega) h1.owned
    (h1.clear (pdptIndex virt))
  have hcard2 := h2.card
  obtain ⟨t3, s3, hcall3, h3⟩ := getTable_new flags h2.wf (by omega) h2.owned
    (h2.clear (pdIndex virt))
  have hcard3 := h3.card
  -- the four tables are different pages
  have hr1 : root ≠ t1 := fun h => hroot (h ▸ h1.free)
  have hr2 : root ≠ t2 := fun h => hroot (h ▸ h2.free.of_le h1.free_le)
  have hr3 : root ≠ t3 := fun h => hroot (h ▸ (h3.free.of_le h2.free_le).of_le h1.free_le)
  have h12 : t1 ≠ t2 := fun h => h1.owned (h ▸ h2.free)
  have h13 : t1 ≠ t3 := fun h => h1.owned (h ▸ h3.free.of_le h2.free_le)
  have h23 : t2 ≠ t3 := fun h => h2.owned (h ▸ h3.free)
  obtain ⟨st', hst'⟩ : ∃ st', st' = s3.write t3 (ptIndex virt) (pageEntry s3 phys flags) := ⟨_, rfl⟩
  have hkeep : ∀ k, k ≠ t3 → st'.mem k = s3.mem k := by
    intro k hk
    rw [hst', VmState.write_other hk]
  refine ⟨st', ?_, ?_, ?_, ?_⟩
  · unfold vmmMapPage
    simp only [hok.nonnull, if_false, hcall1, hcall2, hcall3, hst']
    rfl
  · rw [hst']
    exact (h3.free_le.trans h2.free_le).trans h1.free_le
  · rw [hst']
    change _ = (freeFrames s3.pmm).card + 3
    omega
  have hall := nodup_finRange 512
  have hentry : pageEntry st' phys flags = pageEntry s3 phys flags := by
    rw [hst']
    rfl
  -- what each table holds in the end
  have hm0 : ∀ j, st'.mem root j = s1.mem root j := by
    intro j
    rw [hkeep _ hr3, h3.same _ _ hr3 fun h => absurd h hr2, h2.same _ _ hr2 fun h => absurd h hr1]
  have hm1 : ∀ j, st'.mem t1 j = s2.mem t1 j := by
    intro j
    rw [hkeep _ h13, h3.same _ _ h13 fun h => absurd h h12]
  have hm2 : ∀ j, st'.mem t2 j = s3.mem t2 j := by
    intro j
    rw [hkeep _ h23]
  rw [hentry, h1.requests hm0 hr1 nodup_userHalf hv hempty,
    h2.requests hm1 h12 hall (mem_finRange _) fun j _ => h1.clear j,
    h3.requests hm2 h23 hall (mem_finRange _) fun j _ => h2.clear j, tableRequests,
    flatMap_only hall (mem_finRange (ptIndex virt)), hst', VmState.write_self]
  intro j _ hj
  rw [hst', VmState.write_index hj]
  simp [pageRequests, h3.clear j]

instance neZero_64 : NeZero 64 := ⟨by decide⟩

/-- Memory of a few pages from 1 MiB. -/
def smallMap (pages : Fin 64) : BootInfo where
  hhdmOffset := 0xffff800000000000
  mmap := [⟨0x100000, pages.val * 0x1000, .usable⟩]
  hhdm_lt := touchingMap.hhdm_lt
  hhdm_aligned := touchingMap.hhdm_aligned
  direct_map := by
    intro e he _
    simp only [List.mem_singleton] at he
    subst he
    simp only
    omega

/-- Such a machine after `pmm_init`, with an empty kernel pagemap. -/
def bootState (pages : Fin 64) : VmState where
  mem _ _ := 0#64
  pmm := pmmInit (smallMap pages)
  hasNx := true
  kernelPml4 := pageSize

theorem bootState_free :
    Wf (bootState pages).pmm ∧ freeFrames (bootState pages).pmm = Frames.span 256 pages.val := by
  have hdisj : (smallMap pages).UsableDisjoint := pairwise_singleton _ _
  obtain ⟨hwf, _, hframes⟩ := pmmInit_spec (smallMap pages) hdisj
  refine ⟨hwf, ?_⟩
  change freeFrames (pmmInit (smallMap pages)) = _
  rw [hframes]
  have hlo : max ((0x100000 + pageSize - 1) / pageSize) (freeMinPhys / pageSize) = 256 := by
    decide
  have hpages : (0x100000 + pages.val * 0x1000) / pageSize - 256 = pages.val := by
    unfold pageSize
    omega
  simp only [smallMap, map_cons, map_nil, sum_cons, sum_nil,
    BootMmapEntry.frames, if_true, hlo, hpages, add_zero]

theorem bootState_ok :
    PagemapOk (bootState pages) (bootState pages).kernelPml4 := by
  obtain ⟨hwf, hframes⟩ := bootState_free pages
  have habsent : ∀ n i, child ((bootState pages).mem n i) = none :=
    fun _ _ => child_absent (hasFlag_zero _)
  have hwalk : ∀ p n, walk child (bootState pages).mem pageSize p = some n →
      p = [] ∧ n = pageSize := by
    intro p n hw
    cases p with
    | nil => exact ⟨rfl, (some.inj hw).symm⟩
    | cons i q => simp [walk, habsent] at hw
  refine ⟨hwf, pageSize_pos.ne', Nat.dvd_refl _, ?_, ?_, ?_⟩
  · intro p q n _ _ hwp hwq
    rw [(hwalk p n hwp).1, (hwalk q n hwq).1]
  · intro i _
    exact hasFlag_zero _
  · intro p n _ hw
    rw [(hwalk p n hw).2, hframes]
    simp [pageSize]

/-- A task with one private page: a new pagemap, and the page at address 0 mapped to a
    frame outside the allocator's memory. -/
theorem onePage_built (h : 5 ≤ pages.val) :
    ∃ map src st₁ st2, vmmCreatePagemap (bootState pages) = some ((map, src), st₁) ∧
      vmmMapPage st₁ src 0#64 0x300000#64 (vmmWrite ||| vmmUser) = some (true, st2) ∧
      vmmVirtToPhys st2 src 0#64 = some 0x300000#64 ∧ Built st2 src ∧
      (freeFrames st2.pmm).card + 5 = pages.val ∧
      cloneRequests st2 src = [.map, .table, .table, .table, .table, .page] := by
  obtain ⟨hwf, hframes⟩ := bootState_free pages
  have hcard : (freeFrames (bootState pages).pmm).card = pages.val := by
    rw [hframes, Frames.card_span]
  obtain ⟨map, src, st₁, hcreate, hmap⟩ := vmmCreatePagemap_returns hwf (by omega)
  have hcreated := vmmCreatePagemap_spec (bootState_ok pages) hcreate hmap
  have hcard1 := hcreated.card
  have hzero : IsUser 0#64 := mem_userHalf.mpr (by decide)
  obtain ⟨st2, hcall, hle, hcard2, hreq⟩ := vmmMapPage_first 0x300000#64
    (vmmWrite ||| vmmUser) hcreated.wf hcreated.empty hzero (by omega)
  have hnot : ¬ Free st2 (physOf (0x300000#64 ||| (vmmWrite ||| vmmUser))) := by
    intro hf
    have hmem := (hf.of_le hle).of_le hcreated.free_le
    have hphys : physOf (0x300000#64 ||| (vmmWrite ||| vmmUser)) / pageSize = 768 := by decide
    unfold Free at hmem
    rw [hphys, hframes, Frames.mem_span] at hmem
    omega
  have hmapped := vmmMapPage_spec hcreated.wf hcall
  refine ⟨map, src, st₁, st2, hcreate, hcall, ?_, ?_, by omega, ?_⟩
  · rw [vmmVirtToPhys_eq hmapped.wf.nonnull (hmapped.wf.top _), hmapped.own rfl, map_some,
      resolve_page, pageEntry_phys]
    decide
  · exact .map (.create (bootState_ok pages) hcreate hmap) hcall (by decide) hnot
  have hentry : pageRequests (pageEntry st2 0x300000#64 (vmmWrite ||| vmmUser)) = [.page] := by
    unfold pageEntry VmState.pteMask
    cases st2.hasNx <;> decide
  unfold cloneRequests
  rw [hreq, hentry]

/-- With 10 pages of memory, 5 are left when the task is forked: enough for the
    pagemap and all tables, but not for the page. The call returns a pagemap in which
    a page of the source is not mapped. -/
theorem clone_loses_page :
    ∃ map₀ src st₁ st₂ map pml4 st',
      vmmCreatePagemap (bootState 10) = some ((map₀, src), st₁) ∧
      vmmMapPage st₁ src 0#64 0x300000#64 (vmmWrite ||| vmmUser) = some (true, st₂) ∧
      vmmVirtToPhys st₂ src 0#64 = some 0x300000#64 ∧ Built st₂ src ∧
      vmmClonePagemap st₂ src = some ((map, pml4), st') ∧ map ≠ 0 ∧
      ∃ v, IsUser v ∧ (vmmGetPageFlags st₂ src v).isSome ∧ vmmGetPageFlags st' pml4 v = none := by
  obtain ⟨map₀, src, st₁, st₂, hcreate, hcall, hphys, hbuilt, hcard, hreq⟩ :=
    onePage_built 10 (by decide)
  have hcard : (freeFrames st₂.pmm).card = 5 := by simpa using hcard
  have hlen : (cloneRequests st₂ src).length =
      (tableRequests st₂.mem 3 src userHalf).length + 2 := by simp [cloneRequests]
  rw [hreq] at hlen
  simp only [length_cons, length_nil] at hlen
  have hok := hbuilt.ok.1
  rcases vmmClonePagemap_spec hok.pmm hok.nonnull hbuilt.userTable with ⟨hzero, _⟩ |
    ⟨_, _, htable⟩ | ⟨map, pml4, s, st', hclone, hmap, hpml4, hs, _, hcloned, _⟩
  · omega
  · simp [hreq, hcard] at htable
  · exact ⟨map₀, src, st₁, st₂, map, pml4, st', hcreate, hcall, hphys, hbuilt, hclone, hmap,
      hcloned.not_faithful hbuilt.userTable hok.nonnull hpml4 (by omega)⟩

/-- With one page more the clone is faithful. -/
theorem clone_faithful_eleven :
    ∃ src st, Built st src ∧ ∀ map pml4 st', vmmClonePagemap st src = some ((map, pml4), st') →
      map ≠ 0 → FaithfulCopy st src st' pml4 := by
  obtain ⟨_, src, _, st, _, _, _, hbuilt, hcard, hreq⟩ := onePage_built 11 (by decide)
  refine ⟨src, st, hbuilt, (clone_faithful_iff hbuilt).mpr (.inl ?_)⟩
  rw [hreq]
  simp only [length_cons, length_nil]
  omega

end Cervus.Vmm
