import Cervus.Memory.VmmMap

/-! # Unmapping pages

    `vmm_unmap_page` goes down four levels and clears the last entry. It does not look for
    large pages on its way: it takes a large page for a table, and then the entry is one of
    the words in the page. `vmmUnmapPage_spec` says what a call does in any memory, and
    `unmapPages_spec` what a loop over pages does.

    The last section says what the kernel half of a pagemap is: the addresses from
    `2 ^ 47` on, the frames mapped there outside the direct map, and the tables. The loop
    leaves it alone exactly when each page is `Harmless` (`Unmapped.kernelHalf`,
    `Cleared.harmless`). -/

namespace Cervus.Vmm

open Cervus.Pmm Radix List

/-! ## Section 1: Giving back one frame -/

/-- The addresses at which `pmm_free` takes a page. -/
def Takes (s : PmmBuddyState) (phys : Nat) : Prop :=
  freeMinPhys ≤ phys ∧ s.memStart ≤ phys ∧ phys < s.memEnd

/-- What a `pmm_free` of the page at `phys` has done. -/
structure GivenBack (s : PmmBuddyState) (phys : Nat) (s' : PmmBuddyState) : Prop where
  lists  : ListsOk s'
  region : SameRegion s s'
  frames : ∀ g, g ∈ freeFrames s' ↔ g ∈ freeFrames s ∨ Takes s phys ∧ g = phys / pageSize

variable {s : PmmBuddyState} {phys root k n : Nat} {i : Fin 512} {w : Nat × Fin 512}
  {m : Nat → Fin 512 → Pte} {st st1 st' : VmState} {virt u v : BitVec 64}
  {us vs : List (BitVec 64)}

/-- Nothing has happened to a page that is not taken, or is free already. -/
theorem GivenBack.refl (h : ListsOk s) (hf : Takes s phys → phys / pageSize ∈ freeFrames s) :
    GivenBack s phys s where
  lists := h
  region := SameRegion.refl s
  frames g := by
    constructor
    · exact .inl
    · rintro (hg | ⟨htakes, rfl⟩)
      · exact hg
      · exact hf htakes

theorem sub64_physToVirt {hhdm : Nat} (h : phys < 2 ^ 64) :
    sub64 (u64 (phys + hhdm)) hhdm = phys := by
  unfold sub64 u64
  omega

theorem pmmFree_page (h : ListsOk s) (hdirect : s.hhdmOffset + s.memEnd ≤ 2 ^ 64)
    (ha : pageSize ∣ phys) (hlt : phys < 2 ^ 52) :
    ∃ s', pmmFree s (pmmPhysToVirt s phys) 1 = some s' ∧ GivenBack s phys s' := by
  have hone : pagesToOrder 1 = some (some 0) := by decide
  have haligned : PmmBlock.Aligned ⟨phys, 0⟩ := ⟨Nat.zero_le _, ha⟩
  have hpos : 0 < freeMinPhys := by decide
  unfold pmmFree pmmPhysToVirt
  simp only [hone, sub64_physToVirt (show phys < 2 ^ 64 by omega)]
  -- four tests in a row, the last of them the search for a double free
  split
  case isTrue hnull =>
    refine ⟨s, rfl, .refl h ?_⟩
    rintro ⟨hmin, _, hend⟩
    unfold u64 at hnull
    omega
  split
  case isTrue hout =>
    refine ⟨s, rfl, .refl h ?_⟩
    rintro ⟨_, hstart, hend⟩
    omega
  split
  case isTrue hlow =>
    refine ⟨s, rfl, .refl h ?_⟩
    rintro ⟨hmin, _⟩
    omega
  split
  case isTrue hfind =>
    refine ⟨s, rfl, .refl h fun _ => ?_⟩
    obtain ⟨b, hb⟩ := Option.isSome_iff_exists.mp hfind
    obtain ⟨hmem, rfl⟩ := flFindLoop_sound hb
    exact mem_freeFrames.mpr ⟨b, (h.mem (Nat.zero_le _) hmem).1, PmmBlock.first_mem_frames b⟩
  rename_i hout hlow _
  obtain ⟨hlists, hregion, hframes⟩ := buddyFreeOrder_spec h haligned (by omega)
  refine ⟨_, rfl, hlists, hregion, fun g => ?_⟩
  have htakes : Takes s phys := ⟨by omega, by omega, by omega⟩
  have hg : g ∈ (⟨phys, 0⟩ : PmmBlock).frames ↔ g = phys / pageSize := by
    rw [PmmBlock.mem_frames]
    simp only [Nat.pow_zero]
    omega
  rw [hframes, Multiset.mem_add, hg, or_comm]
  simp only [htakes, true_and]

theorem VmState.freeFrom_page (h : ListsOk st.pmm)
    (hdirect : st.pmm.hhdmOffset + st.pmm.memEnd ≤ 2 ^ 64) (ha : pageSize ∣ phys)
    (hlt : phys < 2 ^ 52) :
    ∃ pmm, st.freeFrom phys 1 = some { st with pmm } ∧ GivenBack st.pmm phys pmm := by
  unfold VmState.freeFrom VmState.free
  split
  · obtain ⟨s', hcall, hback⟩ := pmmFree_page h hdirect ha hlt
    rw [hcall]
    exact ⟨s', rfl, hback⟩
  case isFalse hlow => exact ⟨st.pmm, rfl, .refl h fun htakes => absurd htakes.1 hlow⟩

/-! ## Section 2: One page -/

/-- Where an entry leads for `vmm_unmap_page`, be it a large page or not. -/
def below (e : Pte) : Option Nat := if hasFlag e vmmPresent then some (physOf e) else none

/-- The indices that lead to the page table of an address. -/
def tablePath (virt : BitVec 64) : List (Fin 512) :=
  [pml4Index virt, pdptIndex virt, pdIndex virt]

/-- The word that `vmm_unmap_page` clears: the one that its way ends at, if it is present. -/
def lastWord (m : Nat → Fin 512 → Pte) (root : Nat) (virt : BitVec 64) : Option (Nat × Fin 512) :=
  (walk below m root (tablePath virt)).bind fun pt =>
    if hasFlag (m pt (ptIndex virt)) vmmPresent then some (pt, ptIndex virt) else none

/-- The frame that `vmm_unmap_page` gives to the allocator. -/
def Gives (st : VmState) (root : Nat) (virt : BitVec 64) (f : Nat) : Prop :=
  ∃ w ∈ lastWord st.mem root virt, hasFlag (st.mem w.1 w.2) vmmShared = false ∧
    Takes st.pmm (physOf (st.mem w.1 w.2)) ∧ f = physOf (st.mem w.1 w.2) / pageSize

theorem below_zero : below 0#64 = none := by
  simp [below, hasFlag_zero]

theorem lastWord_eq_some : lastWord m root virt = some w ↔
    walk below m root (tablePath virt) = some w.1 ∧ w.2 = ptIndex virt ∧
      hasFlag (m w.1 w.2) vmmPresent = true := by
  obtain ⟨n, i⟩ := w
  unfold lastWord
  cases walk below m root (tablePath virt) with
  | none => simp
  | some pt =>
    simp only [Option.bind_some, Option.ite_none_right_eq_some, Option.some.injEq, Prod.mk.injEq]
    constructor
    · rintro ⟨hp, rfl, rfl⟩
      exact ⟨rfl, rfl, hp⟩
    · rintro ⟨rfl, rfl, hp⟩
      exact ⟨hp, rfl, rfl⟩

/-- The four tests of the code are a walk. -/
theorem vmmUnmapPage_eq (st : VmState) (root : Nat) (virt : BitVec 64) :
    vmmUnmapPage st root virt =
      match lastWord st.mem root virt with
      | none => some st
      | some w =>
        let e := st.mem w.1 w.2
        if hasFlag e vmmShared then some (st.write w.1 w.2 0#64)
        else (st.write w.1 w.2 0#64).freeFrom (physOf e) 1 := by
  simp only [vmmUnmapPage, lastWord, tablePath, walk, below]
  generalize st.mem root (pml4Index virt) = e4
  cases h4 : hasFlag e4 vmmPresent with
  | false => simp
  | true =>
    cases h3 : hasFlag (st.mem (physOf e4) (pdptIndex virt)) vmmPresent with
    | false => simp [h3]
    | true =>
      cases h2 : hasFlag (st.mem (physOf (st.mem (physOf e4) (pdptIndex virt))) (pdIndex virt))
          vmmPresent with
      | false => simp [h2, h3]
      | true =>
        simp only [h2, h3, if_true, Option.bind_some, Bool.not_true, Bool.false_eq_true, if_false]
        split <;> simp_all

/-- What unmapping the pages at the addresses `vs` has done. -/
structure Unmapped (st : VmState) (root : Nat) (vs : List (BitVec 64)) (st' : VmState) :
    Prop where
  lists    : ListsOk st'.pmm
  region   : SameRegion st.pmm st'.pmm
  words    : ∀ n i, st'.mem n i = st.mem n i ∨
    st'.mem n i = 0#64 ∧ ∃ v ∈ vs, lastWord st.mem root v = some (n, i)
  released : ∀ f ∈ freeFrames st'.pmm, f ∈ freeFrames st.pmm ∨ ∃ v ∈ vs, Gives st root v f
  kept     : ∀ f ∈ freeFrames st.pmm, f ∈ freeFrames st'.pmm

/-- The page at `v` has gone: its word is cleared, and its frame free. -/
structure Cleared (st : VmState) (root : Nat) (v : BitVec 64) (st' : VmState) : Prop where
  word  : ∀ w ∈ lastWord st.mem root v, st'.mem w.1 w.2 = 0#64
  frame : ∀ f, Gives st root v f → f ∈ freeFrames st'.pmm

theorem Unmapped.refl (hl : ListsOk st.pmm) (vs : List (BitVec 64)) : Unmapped st root vs st :=
  ⟨hl, SameRegion.refl _, fun _ _ => .inl rfl, fun _ hf => .inl hf, fun _ hf => hf⟩

/-- The word at the end is cleared. What the allocator has got is left to the caller. -/
theorem Unmapped.clear {pmm : PmmBuddyState} (hw : lastWord st.mem root v = some w)
    (hlists : ListsOk pmm) (hregion : SameRegion st.pmm pmm)
    (hframes : ∀ f, f ∈ freeFrames pmm ↔ f ∈ freeFrames st.pmm ∨ Gives st root v f) :
    Unmapped st root [v] { st.write w.1 w.2 0#64 with pmm } ∧
      Cleared st root v { st.write w.1 w.2 0#64 with pmm } := by
  refine ⟨⟨hlists, hregion, fun n i => ?_, fun f hf => ?_, fun f hf => ?_⟩, ?_, fun f hf => ?_⟩
  · by_cases hni : n = w.1 ∧ i = w.2
    · obtain ⟨rfl, rfl⟩ := hni
      exact .inr ⟨set_self _ _ _ _, v, mem_singleton_self v, hw⟩
    · exact .inl (set_of_ne fun hn hi => hni ⟨hn, hi⟩)
  · rcases (hframes f).mp hf with hf | hf
    · exact .inl hf
    · exact .inr ⟨v, mem_singleton_self v, hf⟩
  · exact (hframes f).mpr (.inl hf)
  · intro w' hw'
    cases hw.symm.trans hw'
    exact set_self _ _ _ _
  · exact (hframes f).mpr (.inr hf)

/-- **`vmm_unmap_page`**, in any memory. -/
theorem vmmUnmapPage_spec (hl : ListsOk st.pmm)
    (hdirect : st.pmm.hhdmOffset + st.pmm.memEnd ≤ 2 ^ 64) (root : Nat) (v : BitVec 64) :
    ∃ st', vmmUnmapPage st root v = some st' ∧ Unmapped st root [v] st' ∧
      Cleared st root v st' := by
  rw [vmmUnmapPage_eq]
  cases hw : lastWord st.mem root v with
  | none =>
    refine ⟨st, rfl, .refl hl _, fun w hw' => ?_, ?_⟩
    · cases hw.symm.trans hw'
    · rintro f ⟨w, hw', _⟩
      cases hw.symm.trans hw'
  | some w =>
    have hgives : ∀ f, Gives st root v f ↔ hasFlag (st.mem w.1 w.2) vmmShared = false ∧
        Takes st.pmm (physOf (st.mem w.1 w.2)) ∧ f = physOf (st.mem w.1 w.2) / pageSize := by
      intro f
      simp only [Gives, hw, Option.mem_def, Option.some.injEq, exists_eq_left']
    cases hs : hasFlag (st.mem w.1 w.2) vmmShared with
    | true =>
      simp only [hs, if_true]
      refine ⟨_, rfl, Unmapped.clear hw hl (SameRegion.refl _) fun f => ?_⟩
      rw [hgives, hs]
      simp
    | false =>
      simp only [hs, Bool.false_eq_true, if_false]
      obtain ⟨pmm, hcall, hback⟩ := @VmState.freeFrom_page _ (st.write w.1 w.2 0#64) hl hdirect
        (physOf_aligned _) (physOf_lt (st.mem w.1 w.2))
      refine ⟨_, hcall, Unmapped.clear hw hback.lists hback.region fun f => ?_⟩
      rw [hback.frames, hgives, hs]
      simp [VmState.write]

/-! ## Section 3: A loop over pages -/

/-- Present words are those of before. -/
theorem Unmapped.word_eq (h : Unmapped st root vs st')
    (hp : hasFlag (st'.mem n i) vmmPresent = true) : st'.mem n i = st.mem n i := by
  rcases h.words n i with heq | ⟨hzero, _⟩
  · exact heq
  · rw [hzero, hasFlag_zero] at hp
    cases hp

theorem Unmapped.cleared (h : Unmapped st root vs st') (n : Nat) (i : Fin 512) :
    st'.mem n i = st.mem n i ∨ child (st'.mem n i) = none ∧ ∀ k, leaf k (st'.mem n i) = none := by
  refine (h.words n i).imp_right fun hzero => ?_
  rw [hzero.1]
  exact ⟨child_absent (hasFlag_zero _), leaf_absent (hasFlag_zero _)⟩

theorem Unmapped.lastWord_of_some (h : Unmapped st root vs st')
    (hw : lastWord st'.mem root v = some w) :
    lastWord st.mem root v = some w ∧ st'.mem w.1 w.2 = st.mem w.1 w.2 := by
  obtain ⟨hwalk, hi, hp⟩ := lastWord_eq_some.mp hw
  have heq := h.word_eq hp
  refine ⟨lastWord_eq_some.mpr ⟨walk_of_cleared (fun n i => ?_) hwalk, hi, heq ▸ hp⟩, heq⟩
  exact (h.words n i).imp_right fun hzero => by rw [hzero.1, below_zero]

theorem Takes.of_region {s' : PmmBuddyState} (h : SameRegion s s') :
    Takes s' phys ↔ Takes s phys := by
  unfold Takes
  rw [h.memStart, h.memEnd]

theorem Unmapped.gives_of (h : Unmapped st root vs st') {f : Nat} (hf : Gives st' root v f) :
    Gives st root v f := by
  obtain ⟨w, hw, hs, htakes, heq⟩ := hf
  obtain ⟨hold, hword⟩ := h.lastWord_of_some hw
  rw [hword] at hs htakes heq
  exact ⟨w, hold, hs, (Takes.of_region h.region).mp htakes, heq⟩

theorem Unmapped.append {ws : List (BitVec 64)} (h1 : Unmapped st root vs st1)
    (h2 : Unmapped st1 root ws st') : Unmapped st root (vs ++ ws) st' where
  lists := h2.lists
  region := h1.region.trans h2.region
  words n i := by
    rcases h2.words n i with heq | ⟨hzero, v, hv, hw⟩
    · rcases h1.words n i with heq1 | ⟨hzero, v, hv, hw⟩
      · exact .inl (heq.trans heq1)
      · exact .inr ⟨heq.trans hzero, v, mem_append_left _ hv, hw⟩
    · exact .inr ⟨hzero, v, mem_append_right _ hv, (h1.lastWord_of_some hw).1⟩
  released f hf := by
    rcases h2.released f hf with hf | ⟨v, hv, hg⟩
    · rcases h1.released f hf with hf | ⟨v, hv, hg⟩
      · exact .inl hf
      · exact .inr ⟨v, mem_append_left _ hv, hg⟩
    · exact .inr ⟨v, mem_append_right _ hv, h1.gives_of hg⟩
  kept f hf := h2.kept f (h1.kept f hf)

theorem Cleared.later (h : Cleared st root v st1) (h2 : Unmapped st1 root vs st') :
    Cleared st root v st' where
  word w hw := by
    rcases h2.words w.1 w.2 with heq | ⟨hzero, _⟩
    · rw [heq]
      exact h.word w hw
    · exact hzero
  frame f hf := h2.kept f (h.frame f hf)

/-- The word that `v` ends at is not on the way of `u`. -/
def Apart (st : VmState) (root : Nat) (v u : BitVec 64) : Prop :=
  ∀ w ∈ lastWord st.mem root v, ¬ OnWay below st.mem root (tablePath u) w

/-- One more page, when the pages before it have cleared nothing on its way. -/
theorem Cleared.step (h1 : Unmapped st root us st1) (hdone : ∀ u ∈ us, Cleared st root u st1)
    (hapart : ∀ u ∈ us, Apart st root u v) (h2 : Unmapped st1 root [v] st')
    (hc : Cleared st1 root v st') : Cleared st root v st' := by
  have hwalk : walk below st1.mem root (tablePath v) = walk below st.mem root (tablePath v) := by
    apply walk_congr
    intro q i r c hsplit hq
    rcases h1.words c i with heq | ⟨_, u, hu, hw⟩
    · rw [heq]
    · exact absurd ⟨q, r, hsplit, hq⟩ (hapart u hu _ hw)
  -- the word is there to be cleared, or another page has cleared it
  have hcase : ∀ w ∈ lastWord st.mem root v, lastWord st1.mem root v = some w ∧
      st1.mem w.1 w.2 = st.mem w.1 w.2 ∨ ∃ u ∈ us, lastWord st.mem root u = some w := by
    intro w hw
    obtain ⟨hn, hi, hp⟩ := lastWord_eq_some.mp hw
    rcases h1.words w.1 w.2 with heq | ⟨_, u, hu, hw'⟩
    · exact .inl ⟨lastWord_eq_some.mpr ⟨hwalk.trans hn, hi, heq ▸ hp⟩, heq⟩
    · exact .inr ⟨u, hu, hw'⟩
  refine ⟨fun w hw => ?_, ?_⟩
  · rcases hcase w hw with ⟨hw1, _⟩ | ⟨u, hu, hw'⟩
    · exact hc.word w hw1
    · exact ((hdone u hu).later h2).word w hw'
  · rintro f ⟨w, hw, hs, htakes, hf⟩
    rcases hcase w hw with ⟨hw1, heq⟩ | ⟨u, hu, hw'⟩
    · refine hc.frame f ⟨w, hw1, ?_⟩
      rw [heq, Takes.of_region h1.region]
      exact ⟨hs, htakes, hf⟩
    · exact ((hdone u hu).later h2).frame f ⟨w, hw', hs, htakes, hf⟩

/-- **A loop of `vmm_unmap_page`**, after the pages `us`. -/
theorem unmapPages_spec (vs : List (BitVec 64)) {st0 : VmState}
    (hdirect : st0.pmm.hhdmOffset + st0.pmm.memEnd ≤ 2 ^ 64) (h : Unmapped st0 root us st)
    (hdone : us.Pairwise (Apart st0 root) → ∀ u ∈ us, Cleared st0 root u st) :
    ∃ st', vs.foldlM (fun st v => vmmUnmapPage st root v) st = some st' ∧
      Unmapped st0 root (us ++ vs) st' ∧
      ((us ++ vs).Pairwise (Apart st0 root) → ∀ v ∈ us ++ vs, Cleared st0 root v st') := by
  induction vs generalizing us st with
  | nil =>
    rw [append_nil]
    exact ⟨st, rfl, h, hdone⟩
  | cons v vs ih =>
    obtain ⟨st1, hcall, h1, hc⟩ := vmmUnmapPage_spec h.lists
      (by rw [h.region.hhdmOffset, h.region.memEnd]; exact hdirect) root v
    obtain ⟨st', hrest, hall⟩ := ih (h.append h1) fun hpair u hu => by
      rw [pairwise_append] at hpair
      rcases mem_append.mp hu with hu | hu
      · exact (hdone hpair.1 u hu).later h1
      · rw [mem_singleton.mp hu]
        exact .step h (hdone hpair.1) (fun u hu => hpair.2.2 u hu v (mem_singleton_self v)) h1 hc
    rw [append_assoc, singleton_append] at hall
    refine ⟨st', ?_, hall⟩
    rw [foldlM_cons, hcall]
    exact hrest

/-! ## Section 4: The kernel half -/

/-- An address that the processor translates: bits 47 to 63 are equal. -/
def IsCanonical (virt : BitVec 64) : Prop := virt.toNat < 2 ^ 47 ∨ 2 ^ 64 - 2 ^ 47 ≤ virt.toNat

instance (virt : BitVec 64) : Decidable (IsCanonical virt) :=
  inferInstanceAs (Decidable (_ ∨ _))

/-- The translation of an address in a pagemap. -/
def translate (st : VmState) (root : Nat) (virt : BitVec 64) : Option (BitVec 64) :=
  if IsCanonical virt then vmmVirtToPhys st root virt else none

/-- The direct map: all of memory, from `hhdm_offset` on. -/
def InDirectMap (st : VmState) (virt : BitVec 64) : Prop :=
  st.pmm.hhdmOffset ≤ virt.toNat ∧ virt.toNat < st.pmm.hhdmOffset + st.pmm.memEnd

/-- The frames mapped in the kernel half. The direct map is not counted: it maps every
    frame, those of user pages too. -/
def KernelMaps (st : VmState) (root : Nat) (f : Nat) : Prop :=
  ∃ virt phys, 2 ^ 47 ≤ virt.toNat ∧ ¬ InDirectMap st virt ∧
    translate st root virt = some phys ∧ phys.toNat / pageSize = f

/-- The tables of the kernel half. -/
def KernelTable (st : VmState) (root : Nat) (f : Nat) : Prop :=
  ∃ virt w, IsCanonical virt ∧ 2 ^ 47 ≤ virt.toNat ∧ OnWay child st.mem root (path virt) w ∧
    w.1 / pageSize = f

/-- An entry on the way of an address that is mapped in the kernel half. -/
def KernelWord (st : VmState) (root : Nat) (w : Nat × Fin 512) : Prop :=
  ∃ virt, 2 ^ 47 ≤ virt.toNat ∧ translate st root virt ≠ none ∧
    OnWay child st.mem root (path virt) w

/-- The kernel half after a step: every address from `2 ^ 47` on has the translation it
    had, and no frame that was mapped there has been given to the allocator. Nor has one of
    its tables, where `pmm_free` would wipe the first entries. -/
structure KernelHalfKept (st : VmState) (root : Nat) (st' : VmState) : Prop where
  translation : ∀ virt : BitVec 64, 2 ^ 47 ≤ virt.toNat →
    translate st' root virt = translate st root virt
  frames      : ∀ f, f ∈ freeFrames st'.pmm → f ∉ freeFrames st.pmm →
    ¬ KernelMaps st root f ∧ ¬ KernelTable st root f

/-- The page at `v` may be unmapped: the word is no entry of the kernel half in use, and the
    frame that it names is not the kernel's. -/
structure Harmless (st : VmState) (root : Nat) (v : BitVec 64) : Prop where
  word  : ∀ w ∈ lastWord st.mem root v, ¬ KernelWord st root w
  frame : ∀ f, Gives st root v f → f ∉ freeFrames st.pmm →
    ¬ KernelMaps st root f ∧ ¬ KernelTable st root f

theorem KernelHalfKept.refl (st : VmState) (root : Nat) : KernelHalfKept st root st :=
  ⟨fun _ _ => rfl, fun _ hf hn => absurd hf hn⟩

theorem pml4Index_val (virt : BitVec 64) :
    (pml4Index virt).val = virt.toNat / 2 ^ 39 % 2 ^ 9 := tableIndex_val virt 39

/-- Canonical addresses from `2 ^ 47` on go through the upper half of the top table. -/
theorem IsCanonical.kernel (h : IsCanonical virt) (hk : 2 ^ 47 ≤ virt.toNat) :
    256 ≤ (pml4Index virt).val := by
  rw [pml4Index_val]
  rcases h with h | h <;> omega

theorem isCanonical_of_translate (h : translate st root virt ≠ none) : IsCanonical virt := by
  unfold Vmm.translate at h
  split at h
  · assumption
  · exact absurd rfl h

/-- Translation is the lookup of canonical addresses. -/
theorem translate_eq (hroot : root ≠ 0) (htop : TopPlain st.mem root virt) :
    translate st root virt = if IsCanonical virt then
      (lookup child leaf st.mem root (path virt)).map (resolve virt) else none := by
  unfold Vmm.translate
  rw [vmmVirtToPhys_eq hroot htop]

section

variable (h : Unmapped st root vs st') (hroot : root ≠ 0) (htop : ∀ virt, TopPlain st.mem root virt)
include h hroot htop

theorem Unmapped.translate_eq' : translate st' root virt = if IsCanonical virt then
    (lookup child leaf st'.mem root (path virt)).map (resolve virt) else none := by
  refine translate_eq hroot fun hp => ?_
  have heq := h.word_eq hp
  rw [heq] at hp ⊢
  exact htop virt hp

/-- **Harmless pages** leave the kernel half as it is. -/
theorem Unmapped.kernelHalf (hharmless : ∀ v ∈ vs, Harmless st root v) :
    KernelHalfKept st root st' := by
  refine ⟨fun virt hk => ?_, fun f hf hnew => ?_⟩
  · rw [h.translate_eq' hroot htop, translate_eq hroot (htop virt)]
    by_cases hcanon : IsCanonical virt
    · rw [if_pos hcanon, if_pos hcanon]
      congr 1
      cases hlook : lookup child leaf st.mem root (path virt) with
      | none =>
        cases hnew : lookup child leaf st'.mem root (path virt) with
        | none => rfl
        | some r => cases hlook.symm.trans (lookup_of_cleared h.cleared hnew)
      | some r =>
        rw [← hlook]
        apply lookup_congr
        intro q i r' c hsplit hq
        rcases h.words c i with heq | ⟨_, v, hv, hw⟩
        · rw [heq]
          exact ⟨rfl, rfl⟩
        · refine absurd ?_ ((hharmless v hv).word _ hw)
          refine ⟨virt, hk, ?_, q, r', hsplit, hq⟩
          rw [translate_eq hroot (htop virt), if_pos hcanon, hlook]
          exact Option.some_ne_none _
    · rw [if_neg hcanon, if_neg hcanon]
  · rcases h.released f hf with hold | ⟨v, hv, hg⟩
    · exact absurd hold hnew
    · exact (hharmless v hv).frame f hg hnew

/-- Nothing else does: a page that has gone was harmless. -/
theorem Cleared.harmless (hv : Cleared st root v st') (hkept : KernelHalfKept st root st') :
    Harmless st root v := by
  refine ⟨?_, fun f hg hnew => hkept.frames f (hv.frame f hg) hnew⟩
  rintro w hw ⟨virt, hk, hsome, hway⟩
  have hzero := hv.word w hw
  have hnone : lookup child leaf st'.mem root (path virt) = none := by
    refine lookup_cleared h.cleared hway ?_ ?_ <;> rw [hzero]
    · exact child_absent (hasFlag_zero _)
    · exact leaf_absent (hasFlag_zero _)
  apply hsome
  rw [← hkept.translation virt hk, h.translate_eq' hroot htop, hnone]
  split <;> rfl

end

/-- The page of an address is not part of a large page. -/
def Plain (m : Nat → Fin 512 → Pte) (root : Nat) (virt : BitVec 64) : Prop :=
  ∀ k e, Radix.lookup child leaf m root (path virt) = some (k, e) → k = 0

/-- On a page that is not part of a large one the code finds the page table. -/
theorem Plain.walk_eq (hplain : Plain m root v) (htop : TopPlain m root v)
    (hw : lastWord m root v = some w) : walk child m root (tablePath v) = some w.1 := by
  have hlevels := lookup_levels m root v htop id
  obtain ⟨hwalk, _⟩ := lastWord_eq_some.mp hw
  rw [Option.map_id, id] at hlevels
  simp only [id] at hlevels
  simp only [Plain, hlevels] at hplain
  unfold TopPlain at htop
  simp only [tablePath, walk, below, child] at hwalk ⊢
  generalize m root (pml4Index v) = e4 at *
  cases h4 : hasFlag e4 vmmPresent with
  | false => simp [h4] at hwalk
  | true =>
    simp only [h4, htop h4, Bool.not_true, Bool.not_false, Bool.and_self, Bool.false_eq_true,
      if_false, if_true, Option.bind_some] at hplain hwalk ⊢
    generalize m (physOf e4) (pdptIndex v) = e3 at *
    cases h3 : hasFlag e3 vmmPresent with
    | false => simp [h3] at hwalk
    | true =>
      cases hp3 : hasFlag e3 vmmPse with
      | true => simp [h3, hp3] at hplain
      | false =>
        simp only [h3, hp3, Bool.not_true, Bool.not_false, Bool.and_self, Bool.false_eq_true,
          if_false, if_true, Option.bind_some] at hplain hwalk ⊢
        generalize m (physOf e3) (pdIndex v) = e2 at *
        cases h2 : hasFlag e2 vmmPresent with
        | false => simp [h2] at hwalk
        | true =>
          cases hp2 : hasFlag e2 vmmPse with
          | true => simp [h2, hp2] at hplain
          | false => simpa [h2, hp2] using hwalk

/-- In a tree of distinct tables the entry of a page in the user half is not one of the kernel
    half. -/
theorem Tables.not_kernelWord (ht : Tables st.mem root) (hplain : Plain st.mem root v)
    (huser : (pml4Index v).val < 256) (hw : lastWord st.mem root v = some w) :
    ¬ KernelWord st root w := by
  rintro ⟨virt, hk, hsome, q, r, hsplit, hq⟩
  have hupper := (isCanonical_of_translate hsome).kernel hk
  have hpath := ht.distinct.split_eq (hplain.walk_eq (ht.top _) hw) (le_refl 3) (le_refl 4)
    hsplit hq
  rw [hpath] at hsplit
  have htops : pml4Index virt = pml4Index v := (cons.inj hsplit).1
  rw [htops] at hupper
  omega

end Cervus.Vmm
