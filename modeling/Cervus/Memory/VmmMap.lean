import Cervus.Memory.PageTable

/-! # Mapping a page

    `vmm_map_page` on a well-formed pagemap: a tree of distinct table frames, none
    of them free in the allocator, with large pages at two levels. Opening a
    table on the way down keeps every translation (`getTable_spec`); the write at
    the end changes those of one page (`PagemapOk.write`). -/

namespace Cervus.Vmm

open Cervus.Pmm Radix BitVec

/-! ## Section 1: Well-formed pagemaps -/

/-- A well-formed pagemap: its tables are distinct frames, the allocator does not
    have them, and the top table has no large pages. -/
structure PagemapOk (st : VmState) (root : Nat) : Prop where
  pmm       : Wf st.pmm
  nonnull   : root ≠ 0
  aligned   : pageSize ∣ root
  distinct  : Radix.Distinct child st.mem root 3
  top       : ∀ i, hasFlag (st.mem root i) vmmPresent = true →
    hasFlag (st.mem root i) vmmPse = false
  allocated : ∀ p n, p.length ≤ 3 → Radix.walk child st.mem root p = some n →
    n / pageSize ∉ freeFrames st.pmm

/-- The part of this that is about the tables alone. -/
structure Tables (m : Nat → Fin 512 → Pte) (root : Nat) : Prop where
  nonnull  : root ≠ 0
  distinct : Radix.Distinct child m root 3
  top      : ∀ i, hasFlag (m root i) vmmPresent = true → hasFlag (m root i) vmmPse = false

variable {st st1 st' : VmState} {root page n t k : Nat} {p : List (Fin 512)} {i : Fin 512}
  {flags e : Pte} {r : Option Nat} {virt phys : BitVec 64}

theorem PagemapOk.tables (h : PagemapOk st root) : Tables st.mem root :=
  ⟨h.nonnull, h.distinct, h.top⟩

/-- A page of the allocator is no table of the pagemap. -/
theorem PagemapOk.fresh (h : PagemapOk st root) (ht : PageTaken st page st1) (p : List (Fin 512))
    (hp : p.length ≤ 3) : walk child st.mem root p ≠ some page := by
  intro hwalk
  apply h.allocated p page hp hwalk
  rw [ht.frames]
  simp

/-! ## Section 2: Opening a table -/

/-- What a `get_table` on the table at path `p` has done when it returned `r`. -/
structure Opened (st : VmState) (root : Nat) (p : List (Fin 512)) (r : Option Nat)
    (st' : VmState) : Prop where
  ok      : PagemapOk st' root
  lookup  : ∀ q, q.length = 4 →
    Radix.lookup child leaf st'.mem root q = Radix.lookup child leaf st.mem root q
  nx      : st'.hasNx = st.hasNx
  free_le : freeFrames st'.pmm ≤ freeFrames st.pmm
  table   : ∀ t, r = some t → Radix.walk child st'.mem root p = some t

/-- The entry that links a new table: its address, present and no large page. -/
theorem child_newTable (flags : Pte) (ha : pageSize ∣ page) (hlt : page < 2 ^ 52) :
    child (BitVec.ofNat 64 page ||| vmmPresent ||| vmmWrite ||| (flags &&& vmmUser)) =
      some page := by
  have huser : (flags &&& vmmUser) &&& ptePhysMask = 0#64 := by
    rw [BitVec.and_assoc, show vmmUser &&& ptePhysMask = 0#64 by decide, and_zero]
  have hpse : (flags &&& vmmUser) &&& vmmPse = 0#64 := by
    rw [BitVec.and_assoc, show vmmUser &&& vmmPse = 0#64 by decide, and_zero]
  have hpresent : (flags &&& vmmUser) &&& vmmPresent = 0#64 := by
    rw [BitVec.and_assoc, show vmmUser &&& vmmPresent = 0#64 by decide, and_zero]
  rw [BitVec.or_assoc, BitVec.or_assoc, child_eq_some]
  refine ⟨?_, ?_, ?_⟩
  · rw [hasFlag_link ha hlt (by decide), hasFlag_iff]
    simp only [and_or_distrib_right, hpresent]
    decide
  · rw [hasFlag_link ha hlt (by decide), hasFlag_eq_false]
    simp only [and_or_distrib_right, hpse]
    decide
  · apply physOf_link ha hlt
    simp only [and_or_distrib_right, huser]
    decide

/-- Setting the user bit of an entry keeps where it leads. -/
theorem child_or_user (e : Pte) : child (e ||| vmmUser) = child e := by
  have hflag : ∀ flag, vmmUser &&& flag = 0#64 → hasFlag (e ||| vmmUser) flag = hasFlag e flag := by
    intro flag h
    unfold hasFlag
    rw [and_or_distrib_right, h, or_zero]
  have hphys : physOf (e ||| vmmUser) = physOf e := by
    unfold physOf
    rw [and_or_distrib_right, show vmmUser &&& ptePhysMask = 0#64 by decide, or_zero]
  unfold child
  rw [hflag _ (by decide), hflag _ (by decide), hphys]

/-- What `get_table` can do: link a new table, refuse a large page, or take the table that is
    there, which it may open to user mode. -/
theorem getTable_cases (h : Wf st.pmm) (hcall : getTable st n i flags = some (r, st')) :
    (∃ t st1 e, hasFlag (st.mem n i) vmmPresent = false ∧ PageTaken st t st1 ∧ child e = some t ∧
      r = some t ∧ st' = st1.write n i e) ∨
    (hasFlag (st.mem n i) vmmPresent = true ∧ hasFlag (st.mem n i) vmmPse = true ∧ r = none ∧
      st' = st) ∨
    ∃ t, child (st.mem n i) = some t ∧ r = some t ∧
      (st' = st ∨ ∃ e, child e = some t ∧ st' = st.write n i e) := by
  unfold getTable at hcall
  cases hpresent : hasFlag (st.mem n i) vmmPresent with
  | false =>
    simp only [hpresent, Bool.not_false, if_true, allocTable] at hcall
    rcases allocPage_cases h with ⟨heq, _⟩ | ⟨t, st1, heq, hne, ht⟩
    · -- no memory: the call halts
      simp [heq] at hcall
    simp only [heq, hne, if_false, VmState.write, set_self] at hcall
    cases hcall
    have hchild := child_newTable flags ht.aligned ht.high
    exact .inl ⟨t, st1, _, rfl, ht, hchild, by rw [(child_eq_some.mp hchild).2.2], rfl⟩
  | true =>
    simp only [hpresent, Bool.not_true, Bool.false_eq_true, if_false] at hcall
    cases hpse : hasFlag (st.mem n i) vmmPse with
    | true =>
      simp only [hpse, if_true] at hcall
      cases hcall
      exact .inr (.inl ⟨rfl, rfl, rfl, rfl⟩)
    | false =>
      simp only [hpse, Bool.false_eq_true, if_false] at hcall
      have hold : child (st.mem n i) = some (physOf (st.mem n i)) :=
        child_eq_some.mpr ⟨hpresent, hpse, rfl⟩
      have hnew := (child_or_user (st.mem n i)).trans hold
      by_cases huser : hasFlag flags vmmUser = true
      · simp only [huser, if_true, VmState.write, set_self] at hcall
        cases hcall
        exact .inr (.inr ⟨_, hold, by rw [(child_eq_some.mp hnew).2.2], .inr ⟨_, hnew, rfl⟩⟩)
      · simp only [huser] at hcall
        cases hcall
        exact .inr (.inr ⟨_, hold, rfl, .inl rfl⟩)

section

variable (h : PagemapOk st root) (hwalk : walk child st.mem root p = some n)
include h hwalk

/-- The entry of an absent table is filled in with a new one. -/
theorem PagemapOk.link (hlen : p.length < 3) (habsent : hasFlag (st.mem n i) vmmPresent = false)
    (ht : PageTaken st page st1) (hchild : child e = some page) :
    Opened st root (p ++ [i]) (some page) (st1.write n i e) := by
  have hlinks : Links child st.mem root 3 p n i e page (fun _ => 0#64) :=
    { distinct := h.distinct
      at_path := hwalk
      depth := hlen
      absent := child_absent habsent
      points := hchild
      fresh := h.fresh ht
      empty := fun _ => child_absent (hasFlag_zero _) }
  have hmem : (st1.write n i e).mem = set (fill st.mem page fun _ => 0#64) n i e := by
    simp only [VmState.write, ht.mem_eq]
  have hfree : freeFrames st1.pmm ≤ freeFrames st.pmm := by
    rw [ht.frames]
    exact Multiset.le_add_left _ _
  have hok : PagemapOk (st1.write n i e) root := by
    refine ⟨ht.wf, h.nonnull, h.aligned, ?_, ?_, ?_⟩
    · rw [hmem]
      exact hlinks.distinct_new
    · -- the top table is not the new page, and the only entry written is no large page
      intro j hj
      have hroot : root ≠ page := fun heq => h.fresh ht [] (by simp) (by simp [heq])
      by_cases hij : root = n ∧ j = i
      · obtain ⟨rfl, rfl⟩ := hij
        rw [hmem, set_self]
        exact (child_eq_some.mp hchild).2.1
      · rw [hmem, set_of_ne fun hn hi => hij ⟨hn, hi⟩] at hj ⊢
        simp only [Radix.fill, hroot, if_false] at hj ⊢
        exact h.top j hj
    intro q c hq hc
    rw [hmem] at hc
    by_cases hpre : p ++ [i] <+: q
    · -- only the new page lies below the new entry
      obtain ⟨r, rfl⟩ := hpre
      obtain ⟨_, rfl⟩ := hlinks.walk_below r c hc
      have hnodup := h.pmm.nodup
      rw [ht.frames, Multiset.singleton_add, Multiset.nodup_cons] at hnodup
      exact hnodup.1
    · rw [hlinks.walk_old (by omega) hpre] at hc
      exact fun hmem => h.allocated q c hq hc (Multiset.mem_of_le hfree hmem)
  refine ⟨hok, ?_, ht.nx, hfree, ?_⟩
  · intro q hq
    rw [hmem]
    exact hlinks.lookup_eq (fun k => leaf_absent habsent _)
      (fun k j => leaf_absent (hasFlag_zero _) k) hq
  · rintro t ⟨rfl⟩
    rw [hmem]
    exact hlinks.walk_new

/-- An entry is replaced by one that leads to the same table. -/
theorem PagemapOk.relabel (hlen : p.length < 3) (hold : child (st.mem n i) = some t)
    (hnew : child e = some t) : Opened st root (p ++ [i]) (some t) (st.write n i e) := by
  have hsame : child e = child (st.mem n i) := by rw [hnew, hold]
  have hwalks : ∀ q, walk child (st.write n i e).mem root q =
      walk child st.mem root q := fun q => walk_set_same hsame q
  have hok : PagemapOk (st.write n i e) root := by
    refine ⟨h.pmm, h.nonnull, h.aligned, h.distinct.set_same hsame, ?_, ?_⟩
    · intro j hj
      by_cases hij : root = n ∧ j = i
      · obtain ⟨rfl, rfl⟩ := hij
        simp only [VmState.write, set_self]
        exact (child_eq_some.mp hnew).2.1
      · simp only [VmState.write, set_of_ne fun hn hi => hij ⟨hn, hi⟩] at hj ⊢
        exact h.top j hj
    · intro q c hq hc
      rw [hwalks] at hc
      exact h.allocated q c hq hc
  refine ⟨hok, ?_, rfl, le_refl _, ?_⟩
  · intro q hq
    exact h.distinct.lookup_set_same hwalk hlen hsame (by simp [hnew]) hq
  · rintro _ ⟨rfl⟩
    rw [hwalks, walk_snoc _ i hwalk, hold]

theorem PagemapOk.opened (hr : ∀ t, r = some t → child (st.mem n i) = some t) :
    Opened st root (p ++ [i]) r st :=
  ⟨h, fun _ _ => rfl, rfl, le_refl _, fun t ht => by rw [walk_snoc _ i hwalk, hr t ht]⟩

/-- **`get_table`** keeps the pagemap well-formed and every lookup, and returns the
    table its entry leads to. -/
theorem getTable_spec (hlen : p.length < 3) (hcall : getTable st n i flags = some (r, st')) :
    Opened st root (p ++ [i]) r st' := by
  rcases getTable_cases h.pmm hcall with ⟨t, st1, e, habsent, ht, hnew, rfl, rfl⟩ |
    ⟨_, _, rfl, rfl⟩ | ⟨t, hold, rfl, rfl | ⟨e, hnew, rfl⟩⟩
  · exact h.link hwalk hlen habsent ht hnew
  · exact h.opened hwalk nofun
  · apply h.opened hwalk
    rintro _ ⟨rfl⟩
    exact hold
  · exact h.relabel hwalk hlen hold hnew

end

/-! ## Section 3: The entry of the page -/

/-- The entry that `vmm_map_page` writes. -/
def pageEntry (st : VmState) (phys : BitVec 64) (flags : Pte) : Pte :=
  ((phys &&& ptePhysMask) ||| flags ||| vmmPresent) &&& st.pteMask

theorem pteMask_and_physMask (st : VmState) : st.pteMask &&& ptePhysMask = ptePhysMask := by
  unfold VmState.pteMask
  cases st.hasNx <;> decide

theorem pageEntry_present (st : VmState) (phys : BitVec 64) (flags : Pte) :
    hasFlag (pageEntry st phys flags) vmmPresent = true := by
  have hmask : st.pteMask.getLsbD 0 = true := by
    unfold VmState.pteMask
    cases st.hasNx <;> decide
  rw [vmmPresent, hasFlag_twoPow (by decide)]
  simp only [pageEntry, getLsbD_and, getLsbD_or, hmask, Bool.and_true]
  simp [vmmPresent]

/-- Its address field also takes the address bits of the flags. -/
theorem pageEntry_phys (st : VmState) (phys : BitVec 64) (flags : Pte) :
    pageEntry st phys flags &&& ptePhysMask = (phys ||| flags) &&& ptePhysMask := by
  unfold pageEntry
  rw [BitVec.and_assoc, pteMask_and_physMask]
  simp only [and_or_distrib_right]
  rw [BitVec.and_assoc, BitVec.and_self, show vmmPresent &&& ptePhysMask = 0#64 by decide,
    or_zero]

/-- Writing an entry of a page table concerns its own path only. -/
theorem Tables.write {m : Nat → Fin 512 → Pte} (h : Tables m root)
    (hwalk : walk child m root p = some t) (hlen : p.length = 3) :
    Tables (set m t i e) root ∧
    (∀ q, q.length ≤ 3 →
      walk child (set m t i e) root q = walk child m root q) ∧
    lookup child leaf (set m t i e) root (p ++ [i]) = leaf 0 e ∧
    ∀ q, q.length = 4 → q ≠ p ++ [i] →
      lookup child leaf (set m t i e) root q = lookup child leaf m root q := by
  have hwalks : ∀ q, q.length ≤ 3 → walk child (set m t i e) root q =
      walk child m root q := fun q hq => h.distinct.set_last hwalk hlen hq
  have hroot : root ≠ t := by
    rintro rfl
    have := h.distinct [] p root (by simp) (by omega) rfl hwalk
    simp [← this] at hlen
  refine ⟨⟨h.nonnull, ?_, ?_⟩, hwalks, ?_, ?_⟩
  · intro q r c hq hr hwq hwr
    rw [hwalks q hq] at hwq
    rw [hwalks r hr] at hwr
    exact h.distinct q r c hq hr hwq hwr
  · intro j hj
    simp only [set_of_ne fun hn _ => hroot hn] at hj ⊢
    exact h.top j hj
  · have hwalk' : walk child (set m t i e) root p = some t := by
      rw [hwalks p (by omega), hwalk]
    rw [lookup_append (by simp) hwalk']
    simp only [lookup, set_self]
  intro q hq hne
  apply h.distinct.lookup_set hwalk (by omega) (by omega)
  intro hpre
  exact hne (hpre.eq_of_length (by simp [hlen, hq])).symm

theorem PagemapOk.write (h : PagemapOk st root) (hwalk : walk child st.mem root p = some t)
    (hlen : p.length = 3) : PagemapOk (st.write t i e) root ∧
    lookup child leaf (st.write t i e).mem root (p ++ [i]) = leaf 0 e ∧
    ∀ q, q.length = 4 → q ≠ p ++ [i] →
      lookup child leaf (st.write t i e).mem root q =
        lookup child leaf st.mem root q := by
  obtain ⟨htables, hwalks, hown, hothers⟩ := h.tables.write hwalk hlen
  refine ⟨⟨h.pmm, h.nonnull, h.aligned, htables.distinct, htables.top, ?_⟩, hown, hothers⟩
  intro q c hq hc
  exact h.allocated q c hq (by rw [← hwalks q hq]; exact hc)

/-! ## Section 4: Addresses of a page -/

/-- The number of the page of an address: bits 12 to 47, the translated ones. -/
def pageNumber (virt : BitVec 64) : BitVec 36 := virt.extractLsb' 12 36

theorem tableIndex_val (virt : BitVec 64) (shift : Nat) :
    (tableIndex virt shift).val = virt.toNat / 2 ^ shift % 2 ^ 9 := by
  simp only [tableIndex, toNat_and, toNat_ushiftRight, Nat.shiftRight_eq_div_pow]
  exact Nat.and_two_pow_sub_one_eq_mod _ 9

/-- Addresses take the same path through the tables exactly in the same page. -/
theorem path_eq_iff {v w : BitVec 64} : path v = path w ↔ pageNumber v = pageNumber w := by
  have hnum : pageNumber v = pageNumber w ↔
      v.toNat / 2 ^ 12 % 2 ^ 36 = w.toNat / 2 ^ 12 % 2 ^ 36 := by
    rw [← toNat_inj]
    simp only [pageNumber, extractLsb'_toNat, Nat.shiftRight_eq_div_pow]
  have hidx : ∀ s, tableIndex v s = tableIndex w s ↔
      v.toNat / 2 ^ s % 2 ^ 9 = w.toNat / 2 ^ s % 2 ^ 9 := by
    intro s
    rw [Fin.ext_iff, tableIndex_val, tableIndex_val]
  simp only [path, pml4Index, pdptIndex, pdIndex, ptIndex, List.cons.injEq, and_true, hidx, hnum]
  omega

/-! ## Section 5: The frame law -/

/-- What a `vmm_map_page` has done when it returned `ok`. -/
structure Mapped (st : VmState) (root : Nat) (virt phys : BitVec 64) (flags : Pte) (ok : Bool)
    (st' : VmState) : Prop where
  wf      : PagemapOk st' root
  free_le : freeFrames st'.pmm ≤ freeFrames st.pmm
  others  : ∀ q, q.length = 4 → (ok = true → q ≠ path virt) →
    Radix.lookup child leaf st'.mem root q = Radix.lookup child leaf st.mem root q
  own     : ok = true →
    Radix.lookup child leaf st'.mem root (path virt) = some (0, pageEntry st phys flags)

/-- A call that fails has opened some of the tables. -/
theorem Opened.failed (h : Opened st root p r st') : Mapped st root virt phys flags false st' :=
  ⟨h.ok, h.free_le, fun q hq _ => h.lookup q hq, nofun⟩

theorem Opened.trans {q : List (Fin 512)} {r1 : Option Nat} (h1 : Opened st root p r1 st1)
    (h : Opened st1 root q r st') : Opened st root q r st' where
  ok := h.ok
  lookup l hl := by rw [h.lookup l hl, h1.lookup l hl]
  nx := by rw [h.nx, h1.nx]
  free_le := h.free_le.trans h1.free_le
  table := h.table

/-- **`vmm_map_page`** -/
theorem vmmMapPage_spec {ok : Bool} (h : PagemapOk st root)
    (hcall : vmmMapPage st root virt phys flags = some (ok, st')) :
    Mapped st root virt phys flags ok st' := by
  unfold vmmMapPage at hcall
  rw [if_neg h.nonnull] at hcall
  -- the three tables on the way down, each opened in the state the one before left
  split at hcall
  · cases hcall
  · next st1 h1 =>
    cases hcall
    exact (getTable_spec h (walk_nil _ _) (by simp) h1).failed
  next pdpt st1 h1 =>
  have o1 := getTable_spec h (walk_nil _ _) (by simp) h1
  split at hcall
  · cases hcall
  · next st2 h2 =>
    cases hcall
    exact (o1.trans (getTable_spec o1.ok (o1.table _ rfl) (by simp) h2)).failed
  next pd st2 h2 =>
  have o2 := o1.trans (getTable_spec o1.ok (o1.table _ rfl) (by simp) h2)
  split at hcall
  · cases hcall
  · next st3 h3 =>
    cases hcall
    exact (o2.trans (getTable_spec o2.ok (o2.table _ rfl) (by simp) h3)).failed
  next pt st3 h3 =>
  have o3 := o2.trans (getTable_spec o2.ok (o2.table _ rfl) (by simp) h3)
  have hentry : pageEntry st3 phys flags = pageEntry st phys flags := by
    simp only [pageEntry, VmState.pteMask, o3.nx]
  change some (true, st3.write pt (ptIndex virt) (pageEntry st3 phys flags)) = _ at hcall
  rw [hentry] at hcall
  cases hcall
  obtain ⟨hok, hown, hothers⟩ := o3.ok.write
    (o3.table _ rfl) (by simp)
  refine ⟨hok, o3.free_le, ?_, ?_⟩
  · intro q hq hne
    rw [hothers q hq (hne rfl), o3.lookup q hq]
  intro _
  change lookup child leaf _ root ([] ++ [pml4Index virt] ++ [pdptIndex virt] ++
    [pdIndex virt] ++ [ptIndex virt]) = _
  rw [hown]
  simp [leaf, pageEntry_present]

/-- **The frame law of `vmm_map_page`.** On a well-formed pagemap: when the call
    returns true, every address of the page of `virt` is translated to the frame of
    the new entry plus its offset, every address with another page number as before;
    when it returns false, every address as before; and the pagemap stays well-formed.
    The frame is `phys` itself if that is a page's address of at most 52 bits and the
    flags have no address bits. -/
theorem map_page_frame_law {st st' : VmState} {pml4 : Nat} {virt phys : BitVec 64} {flags : Pte}
    {ok : Bool} (h : PagemapOk st pml4)
    (hcall : vmmMapPage st pml4 virt phys flags = some (ok, st')) :
    PagemapOk st' pml4 ∧
    (ok = true → ∀ v, pageNumber v = pageNumber virt →
      vmmVirtToPhys st' pml4 v =
        some (((phys ||| flags) &&& ptePhysMask) + (v &&& 0xFFF#64)) ∧
      (phys &&& ptePhysMask = phys → flags &&& ptePhysMask = 0#64 →
        vmmVirtToPhys st' pml4 v = some (phys + (v &&& 0xFFF#64)))) ∧
    (ok = true → ∀ v, pageNumber v ≠ pageNumber virt →
      vmmVirtToPhys st' pml4 v = vmmVirtToPhys st pml4 v) ∧
    (ok = false → ∀ v, vmmVirtToPhys st' pml4 v = vmmVirtToPhys st pml4 v) := by
  obtain ⟨hok, _, hothers, hown⟩ := vmmMapPage_spec h hcall
  have hsame : ∀ v, (ok = true → path v ≠ path virt) →
      vmmVirtToPhys st' pml4 v = vmmVirtToPhys st pml4 v := by
    intro v hv
    rw [vmmVirtToPhys_eq hok.nonnull (hok.top _), vmmVirtToPhys_eq h.nonnull (h.top _),
      hothers _ rfl hv]
  have hpage : ok = true → ∀ v, pageNumber v = pageNumber virt → vmmVirtToPhys st' pml4 v =
        some (((phys ||| flags) &&& ptePhysMask) + (v &&& 0xFFF#64)) := by
    intro htrue v hv
    rw [vmmVirtToPhys_eq hok.nonnull (hok.top _), path_eq_iff.mpr hv, hown htrue, Option.map_some,
      resolve_page, pageEntry_phys, add_eq_or_of_and_eq_zero]
    -- the frame's low bits are clear, the offset has no others
    rw [BitVec.and_assoc, BitVec.and_comm v, ← BitVec.and_assoc ptePhysMask,
      show ptePhysMask &&& 0xFFF#64 = 0#64 by decide, zero_and, and_zero]
  refine ⟨hok, ?_, ?_, ?_⟩
  · intro htrue v hv
    refine ⟨hpage htrue v hv, ?_⟩
    intro hphys hflags
    rw [hpage htrue v hv, and_or_distrib_right, hphys, hflags, or_zero]
  · intro _ v hv
    exact hsame v fun _ heq => hv (path_eq_iff.mp heq)
  · intro hfalse v
    exact hsame v fun htrue => by simp [hfalse] at htrue

/-- A pagemap whose tables lie one after another, each entered by index 0; nothing
    is left in the allocator. -/
def chainState : VmState where
  mem n i := if i = 0 then BitVec.ofNat 64 (n + pageSize) ||| (vmmPresent ||| vmmWrite) else 0#64
  pmm :=
    { hhdmOffset := 0, memStart := 0, memEnd := 0, totalPages := 0, usablePages := 0,
      freePages := 0, orders := fun _ => [] }
  hasNx := true
  kernelPml4 := 0

theorem child_chain (hk : k < 2 ^ 39) (i : Fin 512) :
    child (chainState.mem (pageSize * k) i) =
      if i = 0 then some (pageSize * (k + 1)) else none := by
  have ha : pageSize ∣ pageSize * (k + 1) := Dvd.intro _ rfl
  have hlt : pageSize * (k + 1) < 2 ^ 52 := by
    unfold pageSize
    omega
  by_cases hi : i = 0
  · simp only [chainState, hi, if_true, child_eq_some]
    rw [show pageSize * k + pageSize = pageSize * (k + 1) from rfl,
      hasFlag_link ha hlt (by decide), hasFlag_link ha hlt (by decide),
      physOf_link ha hlt (by decide)]
    exact ⟨by decide, by decide, rfl⟩
  · simp only [chainState, hi, if_false]
    exact child_absent (hasFlag_zero _)

theorem walk_chain (hk : k + p.length ≤ 2 ^ 39)
    (h : walk child chainState.mem (pageSize * k) p = some n) :
    p = List.replicate p.length 0 ∧ n = pageSize * (k + p.length) := by
  induction p generalizing k with
  | nil =>
    cases h
    exact ⟨rfl, rfl⟩
  | cons i rest ih =>
    rw [List.length_cons] at hk
    simp only [walk, child_chain (show k < 2 ^ 39 by omega)] at h
    by_cases hi : i = 0
    · rw [if_pos hi] at h
      obtain ⟨hrest, hn⟩ := ih (by omega) h
      refine ⟨?_, ?_⟩
      · rw [List.length_cons, List.replicate_succ, ← hrest, hi]
      · rw [hn, List.length_cons]
        congr 1
        omega
    · rw [if_neg hi] at h
      cases h

theorem chainState_ok : PagemapOk chainState (pageSize * 512) := by
  have hfree : freeFrames chainState.pmm = 0 := freeFrames_eq_zero fun _ _ => rfl
  refine ⟨?_, by decide, Dvd.intro _ rfl, ?_, ?_, ?_⟩
  · refine ⟨⟨nofun, ?_⟩, ?_, ?_, rfl, ⟨0, rfl⟩, by decide, by decide, rfl⟩
    · intro b hb
      obtain ⟨_, c, hc, _⟩ := mem_freeBlocks.mp hb
      cases hc
    · exact Multiset.nodup_zero
    · rw [hfree]
      intro f hf
      simp at hf
  · intro p q n hp hq hwp hwq
    obtain ⟨hpr, hnp⟩ := walk_chain (by omega) hwp
    obtain ⟨hqr, hnq⟩ := walk_chain (by omega) hwq
    have hlen : p.length = q.length := by
      have := Nat.eq_of_mul_eq_mul_left pageSize_pos (hnp.symm.trans hnq)
      omega
    rw [hpr, hqr, hlen]
  · intro i hi
    by_cases hi0 : i = 0
    · rw [hi0]
      decide
    · simp only [chainState, hi0, if_false, hasFlag_zero] at hi ⊢
  · intro p n _ _
    rw [hfree]
    simp

/-- A frame that does not begin a page is rounded down, and addresses that agree in
    bits 12 to 47 are mapped alike: the translation of `2 ^ 48` changes when page 0
    is mapped. -/
theorem map_page_rounds_and_aliases :
    PagemapOk chainState (pageSize * 512) ∧
    (vmmMapPage chainState (pageSize * 512) 0#64 0x5001#64 vmmUser).map (fun r =>
        (r.1, vmmVirtToPhys r.2 (pageSize * 512) 0#64,
          vmmVirtToPhys r.2 (pageSize * 512) (BitVec.twoPow 64 48))) =
      some (true, some 0x5000#64, some 0x5000#64) ∧
    vmmVirtToPhys chainState (pageSize * 512) (BitVec.twoPow 64 48) = some 0x204000#64 :=
  ⟨chainState_ok, by decide, by decide⟩

theorem map_page_frame_law_chain :
    ∃ st', vmmMapPage chainState (pageSize * 512) 0#64 0x500000#64 vmmWrite = some (true, st') ∧
      PagemapOk st' (pageSize * 512) ∧
      vmmVirtToPhys st' (pageSize * 512) 0x123#64 = some 0x500123#64 ∧
      vmmVirtToPhys st' (pageSize * 512) 0x1123#64 =
        vmmVirtToPhys chainState (pageSize * 512) 0x1123#64 := by
  have hrun : (vmmMapPage chainState (pageSize * 512) 0#64 0x500000#64 vmmWrite).map Prod.fst =
      some true := by decide
  obtain ⟨⟨ok, st'⟩, hcall, hok⟩ := Option.map_eq_some_iff.mp hrun
  cases hok
  obtain ⟨hwf, hpage, hothers, _⟩ := map_page_frame_law chainState_ok hcall
  refine ⟨st', hcall, hwf, ?_, hothers rfl _ (by decide)⟩
  rw [(hpage rfl 0x123#64 (by decide)).2 (by decide) (by decide)]
  decide

end Cervus.Vmm
