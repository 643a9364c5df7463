import Cervus.Memory.VmmUnmap
import Cervus.Syscall.Memory

/-! # `sys_munmap` and the kernel half

    The call checks that its address begins a page and that the length is not zero, and
    nothing else: the range may lie in the kernel half, or run into it, or wrap around, and
    it may cross the large pages of the direct map. The kernel half is left alone exactly when
    each page of the range is harmless. -/

namespace Cervus.Vmm

open Cervus.Pmm

/-! ## Section 1: The pages of a range -/

/-- A range that ends at or below `2 ^ 47` stays in the lower half of the top table. -/
theorem munmapPages_lower {addr length v : BitVec 64}
    (h : addr.toNat + pageCount length * pageSize ≤ 2 ^ 47) (hv : v ∈ munmapPages addr length) :
    (pml4Index v).val < 256 := by
  obtain ⟨i, hi, rfl⟩ := List.mem_map.mp hv
  rw [List.mem_range] at hi
  unfold pageSize at h
  have hval : (addr + BitVec.ofNat 64 i * 0x1000#64).toNat = addr.toNat + i * 4096 := by
    rw [BitVec.toNat_add, BitVec.toNat_mul, BitVec.toNat_ofNat,
      show (0x1000#64 : BitVec 64).toNat = 4096 from rfl,
      Nat.mod_eq_of_lt (show i < 2 ^ 64 by omega),
      Nat.mod_eq_of_lt (show i * 4096 < 2 ^ 64 by omega)]
    exact Nat.mod_eq_of_lt (by omega)
  rw [pml4Index_val, hval]
  omega

/-! ## Section 2: The call -/

/-- **`sys_munmap` and the kernel half.** The call returns. The kernel half is as it was if the
    arguments are refused or every page of the range is harmless, and only then, as long as no
    page ends at a word on the way of a later one. In a tree of tables the pages of a range that
    ends at or below `2 ^ 47` end at none of the kernel's entries. -/
theorem munmap_kernel_half_iff {st : VmState} {t : Task} {addr length : BitVec 64}
    (hpmm : Wf st.pmm) (hroot : t.pagemap ≠ 0) (htop : ∀ virt, TopPlain st.mem t.pagemap virt) :
    ∃ r st', sysMunmap st (some t) addr length = some (r, st') ∧
      (munmapRefuses t addr length = true ∨
          (∀ v ∈ munmapPages addr length, Harmless st t.pagemap v) →
        KernelHalfKept st t.pagemap st') ∧
      ((munmapPages addr length).Pairwise (Apart st t.pagemap) →
        KernelHalfKept st t.pagemap st' →
          munmapRefuses t addr length = true ∨
            ∀ v ∈ munmapPages addr length, Harmless st t.pagemap v) ∧
      (Tables st.mem t.pagemap → addr.toNat + pageCount length * pageSize ≤ 2 ^ 47 →
        (∀ v ∈ munmapPages addr length, Plain st.mem t.pagemap v ∧ ∀ f, Gives st t.pagemap v f →
          ¬ KernelMaps st t.pagemap f ∧ ¬ KernelTable st t.pagemap f) →
        KernelHalfKept st t.pagemap st') := by
  unfold sysMunmap
  cases hrefuse : munmapRefuses t addr length with
  | true =>
    simp only [hrefuse, ↓reduceIte, true_or]
    exact ⟨_, st, rfl, fun _ => .refl _ _, fun _ _ => trivial, fun _ _ _ => .refl _ _⟩
  | false =>
    obtain ⟨st', hcall, hdone, hall⟩ := unmapPages_spec (munmapPages addr length)
      hpmm.direct_map (Unmapped.refl hpmm.lists []) nofun
    rw [List.nil_append] at hdone hall
    have hkept := hdone.kernelHalf hroot htop
    simp only [hrefuse, Bool.false_eq_true, ↓reduceIte, false_or, hcall]
    refine ⟨0, st', rfl, hkept, ?_, ?_⟩
    · intro hapart hhalf v hv
      exact (hall hapart v hv).harmless hdone hroot htop hhalf
    · intro ht hbelow huser
      refine hkept fun v hv => ⟨fun w hw => ?_, fun f hf _ => (huser v hv).2 f hf⟩
      exact ht.not_kernelWord (huser v hv).1 (munmapPages_lower hbelow hv) hw

/-! ## Section 3: Three pages -/

/-- The entries of the tables in the frames 512 to 521: a page of the user at 0, one of the
    kernel at the start of the upper half, and a large page at its end. -/
def halvesEntries : List ((Nat × Fin 512) × Pte) :=
  [((0x200000, 0), 0x201007#64), ((0x201000, 0), 0x202007#64), ((0x202000, 0), 0x203007#64),
    ((0x203000, 0), 0x204007#64),
    ((0x200000, 256), 0x205003#64), ((0x205000, 0), 0x206003#64), ((0x206000, 0), 0x207003#64),
    ((0x207000, 0), 0x208003#64),
    ((0x200000, 511), 0x209003#64), ((0x209000, 511), 0x20A003#64),
    ((0x20A000, 511), 0x40000083#64)]

/-- 2 GiB of memory, of which no frame is free. -/
def halvesState : VmState where
  mem n i := (halvesEntries.lookup (n, i)).getD 0#64
  pmm :=
    { hhdmOffset := 0xFFFF900000000000, memStart := 0, memEnd := 0x80000000,
      totalPages := 0x80000, usablePages := 0, freePages := 0, orders := fun _ => [] }
  hasNx := true
  kernelPml4 := 0

/-- **A page of the kernel is unmapped.** The task asks for one page at the start of the
    kernel half, and its translation is gone. -/
theorem munmap_unmaps_kernel_page :
    translate halvesState 0x200000 0xFFFF800000000000#64 = some 0x208000#64 ∧
    ∃ st', sysMunmap halvesState (some ⟨true, 0x200000, 0, 0, 0⟩) 0xFFFF800000000000#64
        0x1000#64 = some (0, st') ∧
      translate st' 0x200000 0xFFFF800000000000#64 = none := by
  refine ⟨by decide, ?_⟩
  have hrun : (sysMunmap halvesState (some ⟨true, 0x200000, 0, 0, 0⟩)
      0xFFFF800000000000#64 0x1000#64).map (fun r =>
        (r.1, translate r.2 0x200000 0xFFFF800000000000#64)) = some (0, none) := by
    decide
  obtain ⟨⟨r, st'⟩, hcall, hr⟩ := Option.map_eq_some_iff.mp hrun
  simp only [Prod.mk.injEq] at hr
  obtain ⟨rfl, hnone⟩ := hr
  exact ⟨st', hcall, hnone⟩

theorem halves_wf : Wf halvesState.pmm := by
  have hfree : freeFrames halvesState.pmm = 0 := freeFrames_eq_zero fun _ _ => rfl
  refine ⟨⟨nofun, fun b hb => ?_⟩, ?_, ?_, rfl, by decide, by decide, by decide, rfl⟩
  · obtain ⟨_, c, hc, _⟩ := mem_freeBlocks.mp hb
    cases hc
  · rw [hfree]
    exact Multiset.nodup_zero
  · rw [hfree]
    intro f hf
    simp at hf

section

variable {n c : Nat} {i : Fin 512} {virt phys : BitVec 64}

theorem halves_entry (hp : hasFlag (halvesState.mem n i) vmmPresent = true) :
    ((n, i), halvesState.mem n i) ∈ halvesEntries := by
  cases hlook : halvesEntries.lookup (n, i) with
  | none =>
    simp only [halvesState, hlook, Option.getD_none, hasFlag_zero] at hp
    cases hp
  | some e =>
    obtain ⟨l, l', hsplit, _⟩ := List.lookup_eq_some_iff.mp hlook
    simp only [halvesState, hlook, Option.getD_some]
    rw [hsplit]
    simp

/-- The tables of the kernel half, the top one apart, and the frame of its page. -/
def halvesUpper : List Nat := [0x205000, 0x206000, 0x207000, 0x208000, 0x209000, 0x20A000]

theorem halves_child (hn : n ∈ halvesUpper ∨ n = 0x200000 ∧ 256 ≤ i.val)
    (h : child (halvesState.mem n i) = some c) : c ∈ halvesUpper := by
  obtain ⟨hp, _⟩ := child_eq_some.mp h
  have hentry := halves_entry hp
  generalize halvesState.mem n i = e at *
  have hall : ∀ x ∈ halvesEntries, x.1.1 ∈ halvesUpper ∨ x.1.1 = 0x200000 ∧ 256 ≤ x.1.2.val →
      ∀ c ∈ child x.2, c ∈ halvesUpper := by
    decide +kernel
  exact hall _ hentry hn c h

theorem halves_walk {q : List (Fin 512)} (hn : n ∈ halvesUpper)
    (h : Radix.walk child halvesState.mem n q = some c) : c ∈ halvesUpper := by
  induction q generalizing n with
  | nil =>
    cases h
    exact hn
  | cons i q ih =>
    obtain ⟨c', hc, hrest⟩ := Option.bind_eq_some_iff.mp h
    exact ih (halves_child (.inl hn) hc) hrest

theorem halves_way {w : Nat × Fin 512} (hcanon : IsCanonical virt) (hk : 2 ^ 47 ≤ virt.toNat)
    (h : Radix.OnWay child halvesState.mem 0x200000 (path virt) w) :
    w.1 ∈ 0x200000 :: halvesUpper := by
  obtain ⟨q, r, hsplit, hq⟩ := h
  cases q with
  | nil =>
    rw [← Option.some.inj hq]
    exact .head _
  | cons i q =>
    obtain ⟨c', hc, hrest⟩ := Option.bind_eq_some_iff.mp hq
    have hi : pml4Index virt = i := (List.cons.inj hsplit).1
    exact .tail _ (halves_walk (halves_child (.inr ⟨rfl, hi ▸ hcanon.kernel hk⟩) hc) hrest)

/-- The user's frame is not a table of the kernel half. -/
theorem halves_kernelTable : ¬ KernelTable halvesState 0x200000 0x204 := by
  rintro ⟨virt, w, hcanon, hk, hway, hw⟩
  have hall : ∀ n ∈ 0x200000 :: halvesUpper, n / pageSize ≠ 0x204 := by decide
  exact hall _ (halves_way hcanon hk hway) hw

theorem le_toNat_or {x y : BitVec 64} : x.toNat ≤ (x ||| y).toNat := by
  rw [BitVec.toNat_or]
  exact Nat.left_le_or

theorem halves_leaf {k : Nat} {r : Nat × Pte} (hn : n ∈ halvesUpper)
    (h : leaf k (halvesState.mem n i) = some r) : 0x205000 ≤ (resolve virt r).toNat := by
  have hp : hasFlag (halvesState.mem n i) vmmPresent = true := by
    by_contra habsent
    rw [leaf_absent (Bool.not_eq_true _ ▸ habsent)] at h
    cases h
  have hentry := halves_entry hp
  generalize halvesState.mem n i = e at *
  have hall : ∀ x ∈ halvesEntries, x.1.1 ∈ halvesUpper → ∀ k ∈ [0, 1, 2], ∀ r ∈ leaf k x.2,
      0x205000 ≤ (r.2 &&& ptePhysMask &&& ~~~offsetMask r.1).toNat := by
    decide +kernel
  have hk : k ∈ [0, 1, 2] := by
    unfold leaf at h
    split at h
    · decide
    · decide
    · decide
    · cases h
  exact (hall _ hentry hn k hk r h).trans le_toNat_or

theorem halves_lookup {p : List (Fin 512)} {r : Nat × Pte} (hn : n ∈ halvesUpper)
    (h : Radix.lookup child leaf halvesState.mem n p = some r) :
    0x205000 ≤ (resolve virt r).toNat := by
  induction p generalizing n with
  | nil => cases h
  | cons i rest ih =>
    cases rest with
    | nil => exact halves_leaf hn h
    | cons j rest =>
      simp only [Radix.lookup] at h
      cases hc : child (halvesState.mem n i) with
      | none =>
        rw [hc] at h
        exact halves_leaf hn h
      | some c =>
        rw [hc] at h
        exact ih (halves_child (.inl hn) hc) h

theorem halves_top (virt : BitVec 64) : TopPlain halvesState.mem 0x200000 virt := by
  intro hp
  have hentry := halves_entry hp
  generalize halvesState.mem 0x200000 (pml4Index virt) = e at *
  have hall : ∀ x ∈ halvesEntries, x.1.1 = 0x200000 → hasFlag x.2 vmmPse = false := by
    decide +kernel
  exact hall _ hentry rfl

/-- Nor is it mapped there. -/
theorem halves_kernelMaps : ¬ KernelMaps halvesState 0x200000 0x204 := by
  rintro ⟨virt, phys, hk, _, htrans, hphys⟩
  have hcanon : IsCanonical virt := isCanonical_of_translate (by rw [htrans]; simp)
  rw [translate_eq (by decide) (halves_top virt), if_pos hcanon] at htrans
  obtain ⟨r, hlook, rfl⟩ := Option.map_eq_some_iff.mp htrans
  have hlow : 0x205000 ≤ (resolve virt r).toNat := by
    simp only [path, Radix.lookup] at hlook
    cases hc : child (halvesState.mem 0x200000 (pml4Index virt)) with
    | none =>
      rw [hc] at hlook
      cases hlook
    | some c =>
      rw [hc] at hlook
      exact halves_lookup (p := [pdptIndex virt, pdIndex virt, ptIndex virt])
        (halves_child (.inr ⟨rfl, hcanon.kernel hk⟩) hc) hlook
  unfold pageSize at hphys
  omega

end

/-- Two pages at the end of the addresses and at 0, where the range wraps around: nothing of the
    large page looks like an entry, and the user's frame goes to the allocator. -/
theorem munmap_kernel_half_iff_wraps :
    ∃ r st', sysMunmap halvesState (some ⟨true, 0x200000, 0, 0, 0⟩) 0xFFFFFFFFFFFFF000#64
        0x2000#64 = some (r, st') ∧
      KernelHalfKept halvesState 0x200000 st' ∧
      translate st' 0x200000 0xFFFFFFFFFFFFF000#64 = some 0x401FF000#64 ∧
      translate st' 0x200000 0#64 = none ∧ st'.pmm.orders 0 = [⟨0x204000, 0⟩] := by
  have hrun : (sysMunmap halvesState (some ⟨true, 0x200000, 0, 0, 0⟩) 0xFFFFFFFFFFFFF000#64
      0x2000#64).map (fun r => (translate r.2 0x200000 0xFFFFFFFFFFFFF000#64,
        translate r.2 0x200000 0#64, r.2.pmm.orders 0)) =
      some (some 0x401FF000#64, none, [⟨0x204000, 0⟩]) := by
    decide
  have hpages : munmapPages 0xFFFFFFFFFFFFF000#64 0x2000#64 = [0xFFFFFFFFFFFFF000#64, 0#64] := by
    decide
  have hlast : lastWord halvesState.mem 0x200000 0#64 = some (0x203000, 0) := by decide
  have hharmless : ∀ v ∈ munmapPages 0xFFFFFFFFFFFFF000#64 0x2000#64,
      Harmless halvesState 0x200000 v := by
    rw [hpages]
    intro v hv
    rcases List.mem_pair.mp hv with rfl | rfl
    · have hnone : lastWord halvesState.mem 0x200000 0xFFFFFFFFFFFFF000#64 = none := by decide
      refine ⟨fun w hw => ?_, ?_⟩
      · cases hnone.symm.trans hw
      · rintro f ⟨w, hw, _⟩
        cases hnone.symm.trans hw
    · refine ⟨?_, ?_⟩
      · rintro w hw ⟨virt, hk, hsome, hway⟩
        cases hlast.symm.trans hw
        exact absurd (halves_way (isCanonical_of_translate hsome) hk hway) (by decide)
      · rintro f ⟨w, hw, _, _, rfl⟩ _
        cases hlast.symm.trans hw
        exact ⟨halves_kernelMaps, halves_kernelTable⟩
  obtain ⟨r, st', hcall, hkept, _⟩ := @munmap_kernel_half_iff halvesState
    ⟨true, 0x200000, 0, 0, 0⟩ 0xFFFFFFFFFFFFF000#64 0x2000#64 halves_wf (by decide) halves_top
  rw [hcall, Option.map_some, Option.some.injEq, Prod.mk.injEq, Prod.mk.injEq] at hrun
  exact ⟨r, st', hcall, hkept (.inr hharmless), hrun⟩

end Cervus.Vmm
