import Cervus.Memory.PmmInvariant
import Cervus.Memory.Vmm

/-! # Page tables as radix trees

    The facts about entries, addresses and page allocation that mapping and
    cloning rest on:

    * the address field of an entry (`physOf_eq`, `physOf_link`);
    * `child` and `leaf` make a pagemap a radix tree of depth 3, and
      `vmmVirtToPhys_eq` says that translation is its lookup;
    * `allocPage_cases`: a page comes off the free lists, or none is free. -/

namespace Cervus.Vmm

open Cervus.Pmm BitVec

/-! ## Section 1: Bits of an entry -/

/-- The address field is the 40 bits from bit 12. -/
theorem physOf_eq (e : Pte) : physOf e = e.toNat / 2 ^ 12 % 2 ^ 40 * 2 ^ 12 := by
  have hmask : ptePhysMask.toNat = (2 ^ 40 - 1) * 2 ^ 12 := by decide
  unfold physOf
  rw [toNat_and, hmask]
  apply Nat.eq_of_testBit_eq
  intro i
  rw [Nat.testBit_and, Nat.testBit_mul_two_pow, Nat.testBit_mul_two_pow,
    Nat.testBit_two_pow_sub_one, Nat.testBit_mod_two_pow, Nat.testBit_div_two_pow]
  by_cases hi : 12 ≤ i
  · simp [hi, Bool.and_comm]
  · simp [hi]

theorem physOf_aligned (e : Pte) : pageSize ∣ physOf e := by
  rw [physOf_eq]
  exact Dvd.intro_left _ rfl

theorem physOf_lt (e : Pte) : physOf e < 2 ^ 52 := by
  rw [physOf_eq]
  omega

variable {p root : Nat} {e flag bits : Pte} {st : VmState} {virt : BitVec 64}

theorem hasFlag_iff : hasFlag e flag = true ↔ e &&& flag ≠ 0#64 := by
  simp [hasFlag]

theorem hasFlag_eq_false : hasFlag e flag = false ↔ e &&& flag = 0#64 := by
  simp [hasFlag]

theorem hasFlag_twoPow {k : Nat} (hk : k < 64) (e : Pte) :
    hasFlag e (twoPow 64 k) = e.getLsbD k := by
  have hne : twoPow 64 k ≠ 0#64 := by
    intro h
    have := congrArg (getLsbD · k) h
    simp [hk] at this
  unfold hasFlag
  rw [and_twoPow]
  cases e.getLsbD k <;> simp [hne]

section

variable (ha : pageSize ∣ p) (hlt : p < 2 ^ 52)
include ha hlt

/-- A page's address, as a machine word, lies within the address field. -/
theorem ofNat_and_mask : BitVec.ofNat 64 p &&& ptePhysMask = BitVec.ofNat 64 p := by
  apply eq_of_toNat_eq
  have hp := physOf_eq (BitVec.ofNat 64 p)
  unfold physOf at hp
  rw [hp, toNat_ofNat]
  unfold pageSize at *
  omega

/-- Bits outside the address field are not set in a page's address. -/
theorem ofNat_and_flag {m : Pte} (hm : ptePhysMask &&& m = 0#64) :
    BitVec.ofNat 64 p &&& m = 0#64 := by
  rw [← ofNat_and_mask ha hlt, BitVec.and_assoc, hm, and_zero]

/-- An entry made of a page's address and bits outside the address field. -/
theorem physOf_link (hbits : bits &&& ptePhysMask = 0#64) :
    physOf (BitVec.ofNat 64 p ||| bits) = p := by
  unfold physOf
  rw [and_or_distrib_right, ofNat_and_mask ha hlt, hbits, or_zero, toNat_ofNat]
  exact Nat.mod_eq_of_lt (by omega)

theorem hasFlag_link (hflag : ptePhysMask &&& flag = 0#64) :
    hasFlag (BitVec.ofNat 64 p ||| bits) flag = hasFlag bits flag := by
  unfold hasFlag
  rw [and_or_distrib_right, ofNat_and_flag ha hlt hflag, zero_or]

end

/-! ## Section 2: The tree -/

/-- Where an entry leads: present entries that are not large pages. -/
def child (e : Pte) : Option Nat :=
  if hasFlag e vmmPresent && !hasFlag e vmmPse then some (physOf e) else none

/-- A mapping found `k` levels above the page tables, with its entry. -/
def leaf : Nat → Pte → Option (Nat × Pte)
  | 0, e => if hasFlag e vmmPresent then some (0, e) else none
  | 1, e => if hasFlag e vmmPresent && hasFlag e vmmPse then some (1, e) else none
  | 2, e => if hasFlag e vmmPresent && hasFlag e vmmPse then some (2, e) else none
  | _, _ => none

/-- The indices a virtual address is translated by. -/
def path (virt : BitVec 64) : List (Fin 512) :=
  [pml4Index virt, pdptIndex virt, pdIndex virt, ptIndex virt]

/-- The offset bits of a mapping `k` levels up: 4 KiB, 2 MiB and 1 GiB pages. -/
def offsetMask : Nat → BitVec 64
  | 0 => 0xFFF#64
  | 1 => 0x1FFFFF#64
  | _ => 0x3FFFFFFF#64

/-- The physical address of `virt` in a mapping. -/
def resolve (virt : BitVec 64) (found : Nat × Pte) : BitVec 64 :=
  (found.2 &&& ptePhysMask &&& ~~~offsetMask found.1) ||| (virt &&& offsetMask found.1)

theorem resolve_page (virt : BitVec 64) (e : Pte) :
    resolve virt (0, e) = (e &&& ptePhysMask) ||| (virt &&& 0xFFF#64) := by
  have hmask : ptePhysMask &&& ~~~(0xFFF#64) = ptePhysMask := by decide
  simp only [resolve, offsetMask]
  rw [BitVec.and_assoc, hmask]

theorem child_eq_some {n : Nat} :
    child e = some n ↔ hasFlag e vmmPresent = true ∧ hasFlag e vmmPse = false ∧ physOf e = n := by
  unfold child
  cases hasFlag e vmmPresent <;> cases hasFlag e vmmPse <;> simp

theorem child_absent (h : hasFlag e vmmPresent = false) : child e = none := by
  simp [child, h]

theorem leaf_absent (h : hasFlag e vmmPresent = false) (k : Nat) : leaf k e = none := by
  unfold leaf
  split <;> simp [h]

/-- The entries of a cleared page. -/
theorem hasFlag_zero (flag : Pte) : hasFlag 0#64 flag = false := by
  simp [hasFlag]

/-- The entry of the top table for an address is not a large page: there are none at this
    level, and the bit is reserved. -/
def TopPlain (m : Nat → Fin 512 → Pte) (root : Nat) (virt : BitVec 64) : Prop :=
  hasFlag (m root (pml4Index virt)) vmmPresent = true →
    hasFlag (m root (pml4Index virt)) vmmPse = false

/-- A lookup, level by level, in a pagemap whose top table has no large page on the
    way: the shape of `vmm_virt_to_phys` and `vmm_get_page_flags`. -/
theorem lookup_levels {α : Type} (m : Nat → Fin 512 → Pte) (root : Nat) (virt : BitVec 64)
    (htop : TopPlain m root virt) (f : Nat × Pte → α) :
    (Radix.lookup child leaf m root (path virt)).map f =
      let e4 := m root (pml4Index virt)
      if !hasFlag e4 vmmPresent then none
      else
        let e3 := m (physOf e4) (pdptIndex virt)
        if !hasFlag e3 vmmPresent then none
        else if hasFlag e3 vmmPse then some (f (2, e3))
        else
          let e2 := m (physOf e3) (pdIndex virt)
          if !hasFlag e2 vmmPresent then none
          else if hasFlag e2 vmmPse then some (f (1, e2))
          else
            let e1 := m (physOf e2) (ptIndex virt)
            if !hasFlag e1 vmmPresent then none else some (f (0, e1)) := by
  simp only [path, Radix.lookup, child]
  unfold TopPlain at htop
  generalize m root (pml4Index virt) = e4 at htop
  cases h4 : hasFlag e4 vmmPresent with
  | false => simp [leaf]
  | true =>
    simp only [htop h4, Bool.not_true, Bool.not_false, Bool.and_self, Bool.false_eq_true, if_false,
      if_true, List.length_cons, List.length_nil]
    generalize m (physOf e4) (pdptIndex virt) = e3
    -- the two levels where a present entry may be a large page
    cases h3 : hasFlag e3 vmmPresent with
    | false => simp [leaf, h3]
    | true =>
      cases hp3 : hasFlag e3 vmmPse with
      | true => simp [leaf, h3, hp3]
      | false =>
        simp only [Bool.not_true, Bool.not_false, Bool.and_self, Bool.false_eq_true, if_false,
          if_true]
        generalize m (physOf e3) (pdIndex virt) = e2
        cases h2 : hasFlag e2 vmmPresent with
        | false => simp [leaf, h2]
        | true =>
          cases hp2 : hasFlag e2 vmmPse with
          | true => simp [leaf, h2, hp2]
          | false =>
            simp only [Bool.not_true, Bool.not_false, Bool.and_self, Bool.false_eq_true, if_false,
              if_true]
            generalize m (physOf e2) (ptIndex virt) = e1
            cases h1 : hasFlag e1 vmmPresent <;> simp [leaf, h1]

/-- **Translation is lookup.** -/
theorem vmmVirtToPhys_eq (hroot : root ≠ 0) (htop : TopPlain st.mem root virt) :
    vmmVirtToPhys st root virt =
      (Radix.lookup child leaf st.mem root (path virt)).map (resolve virt) := by
  rw [lookup_levels _ _ _ htop]
  simp only [vmmVirtToPhys, hroot, if_false, resolve_page]
  rfl

theorem vmmGetPageFlags_eq (hroot : root ≠ 0) (htop : TopPlain st.mem root virt) :
    vmmGetPageFlags st root virt =
      (Radix.lookup child leaf st.mem root (path virt)).map fun found => found.2 &&& flagBits := by
  rw [lookup_levels _ _ _ htop]
  simp only [vmmGetPageFlags, hroot, if_false]

/-! ## Section 3: One page from the allocator -/

/-- A cleared page has left the free lists between `st` and `st'`. -/
structure PageTaken (st : VmState) (page : Nat) (st' : VmState) : Prop where
  wf      : Wf st'.pmm
  aligned : pageSize ∣ page
  low     : freeMinPhys ≤ page
  high    : page < 2 ^ 52
  frames  : freeFrames st.pmm = {page / pageSize} + freeFrames st'.pmm
  mem_eq  : st'.mem = Radix.fill st.mem page fun _ => 0#64
  nx      : st'.hasNx = st.hasNx
  kernel  : st'.kernelPml4 = st.kernelPml4

/-- **`pmm_alloc_zero(1)`**: no frame is free and nothing happens, or a page is taken. -/
theorem allocPage_cases (h : Wf st.pmm) : (allocPage st = some (0, st) ∧ freeFrames st.pmm = 0) ∨
    ∃ page st', allocPage st = some (page, st') ∧ page ≠ 0 ∧ PageTaken st page st' := by
  unfold allocPage
  rcases pmmAllocZero_one h with ⟨heq, hfree⟩ | ⟨phys, s', heq, hmin, htaken⟩
  · left
    rw [heq]
    exact ⟨rfl, hfree⟩
  right
  have hmin0 : 0 < freeMinPhys := by decide
  have hal := htaken.aligned
  have hmem : phys / pageSize ∈ (⟨phys, 0⟩ : PmmBlock).frames := PmmBlock.first_mem_frames _
  have hrange := htaken.phys_range h _ hmem
  have hphys := hal.phys_eq
  obtain ⟨q, hq⟩ := h.memEnd_aligned
  have hend := h.memEnd_le
  have hdm := h.direct_map
  rw [hq, Nat.mul_div_cancel_left _ pageSize_pos] at hrange
  have hlt : phys < st.pmm.memEnd := by
    rw [hq, show phys = phys / pageSize * pageSize from hphys, Nat.mul_comm]
    exact Nat.mul_lt_mul_of_pos_left hrange.2 pageSize_pos
  have hv2p : pmmVirtToPhys s' (phys + st.pmm.hhdmOffset) = phys := by
    unfold pmmVirtToPhys
    rw [htaken.region.hhdmOffset, sub64_of_le (by omega) (by omega)]
    omega
  rw [heq]
  simp only [hv2p, if_neg (show ¬ phys + st.pmm.hhdmOffset = 0 by omega)]
  refine ⟨phys, _, rfl, by omega, ?_⟩
  exact
    { wf := htaken.wf
      aligned := hal.page
      low := hmin
      high := by omega
      frames := by
        rw [htaken.frames]
        simp [PmmBlock.frames, Frames.span, VmState.fillPage]
      mem_eq := rfl
      nx := rfl
      kernel := rfl }

end Cervus.Vmm
