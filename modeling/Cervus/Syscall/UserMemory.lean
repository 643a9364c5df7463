import Cervus.Memory.VmmMap
import Cervus.Syscall.Memory

/-! # Pointers from user mode

    The checks of `syscall/helpers.c` on a range of user memory, and the copies
    that rest on them. `allows` is the walk of the processor: an access needs its
    permission at every level. The code steps through the pages of a range and asks
    `vmm_virt_flags` for each; `user_pointers_exact` says that this is the same for
    every byte. -/

namespace Cervus.Vmm

open Cervus.Pmm

/-! ## Section 1: The code -/

/-- `vmm_virt_flags`: the write and user bits that all entries on the way have. -/
def vmmVirtFlags (st : VmState) (pml4 : Nat) (virt : BitVec 64) : Option Pte :=
  let acc := vmmWrite ||| vmmUser
  let e4 := st.mem pml4 (pml4Index virt)
  if pml4 = 0 then none
  else if !hasFlag e4 vmmPresent then none
  else
    let acc := acc &&& e4
    let e3 := st.mem (physOf e4) (pdptIndex virt)
    if !hasFlag e3 vmmPresent then none
    else
      let acc := acc &&& e3
      if hasFlag e3 vmmPse then some acc
      else
        let e2 := st.mem (physOf e3) (pdIndex virt)
        if !hasFlag e2 vmmPresent then none
        else
          let acc := acc &&& e2
          if hasFlag e2 vmmPse then some acc
          else
            let e1 := st.mem (physOf e2) (ptIndex virt)
            if !hasFlag e1 vmmPresent then none else some (acc &&& e1)

/-- The test of `uptr_range_ok` on one page. -/
def uptrPageOk (st : VmState) (root : Nat) (needWrite : Bool) (p : BitVec 64) : Bool :=
  match vmmVirtFlags st root p with
  | none => false
  | some flags => hasFlag flags vmmUser && (!needWrite || hasFlag flags vmmWrite)

/-- `uptr_range_ok`, for the current task. -/
def uptrRangeOk (st : VmState) (cur : Option Task) (addr len : BitVec 64) (needWrite : Bool) :
    Bool :=
  if addr < 0x1000#64 then false
  else if userEnd ≤ addr then false
  else if userEnd < len then false
  else if len ≠ 0#64 ∧ addr + len - 1#64 < addr then false
  else if userEnd < addr + len then false
  else if len = 0#64 then true
  else match cur with
    | none => true
    | some t =>
      if t.pagemap = 0 then true
      else if !t.isUserspace then true
      else
        -- the loop runs up to and with the last page, which lies below `userEnd`
        let pageEnd := (addr + len - 1#64) &&& ~~~0xFFF#64
        (pagesUpTo (addr &&& ~~~0xFFF#64) (pageEnd + 0x1000#64)).all
          (uptrPageOk st t.pagemap needWrite)

def syscallUptrValidate (st : VmState) (cur : Option Task) (addr len : BitVec 64) : Bool :=
  uptrRangeOk st cur addr len false

def syscallUptrValidateWrite (st : VmState) (cur : Option Task) (addr len : BitVec 64) : Bool :=
  uptrRangeOk st cur addr len true

def efault : Int := 14

/-- The addresses a `memcpy` of `n` bytes goes through. -/
def userBytes (addr n : BitVec 64) : List (BitVec 64) :=
  (List.range n.toNat).map fun i => addr + BitVec.ofNat 64 i

/-- `syscall_copy_from_user`: the result and the bytes read. -/
def syscallCopyFromUser (st : VmState) (cur : Option Task) (read : BitVec 64 → UInt8)
    (src n : BitVec 64) : Int × List UInt8 :=
  if !uptrRangeOk st cur src n false then (-efault, [])
  else (0, (userBytes src n).map read)

/-- `syscall_copy_to_user`: the result and the bytes stored, with their addresses. -/
def syscallCopyToUser (st : VmState) (cur : Option Task) (dst : BitVec 64) (src : List UInt8)
    (n : BitVec 64) : Int × List (BitVec 64 × UInt8) :=
  if !uptrRangeOk st cur dst n true then (-efault, [])
  else (0, (userBytes dst n).zip src)

/-! ## Section 2: The processor -/

/-- The walk of the processor from a table `k` levels above the page tables: every entry
    on the way is present and meets `ok`, down to a page; the top table has no pages. -/
def allows (m : Nat → Fin 512 → Pte) (ok : Pte → Bool) : Nat → Nat → List (Fin 512) → Bool
  | 0, n, i :: _ => hasFlag (m n i) vmmPresent && ok (m n i)
  | k + 1, n, i :: p =>
    hasFlag (m n i) vmmPresent && ok (m n i) &&
      if hasFlag (m n i) vmmPse then k < 2 else allows m ok k (physOf (m n i)) p
  | _, _, [] => false

/-- User mode may read (or write) the byte at `virt`. -/
def userAllows (st : VmState) (root : Nat) (write : Bool) (virt : BitVec 64) : Bool :=
  allows st.mem (fun e => hasFlag e vmmUser && (!write || hasFlag e vmmWrite)) 3 root (path virt)

/-- A range of user addresses all of whose bytes user mode may read (or write). -/
def UserRange (st : VmState) (root : Nat) (write : Bool) (addr len : BitVec 64) : Prop :=
  0x1000 ≤ addr.toNat ∧ addr.toNat + len.toNat ≤ 2 ^ 47 ∧
    ∀ a ∈ userBytes addr len, userAllows st root write a = true

variable {st : VmState} {root : Nat} {addr len virt : BitVec 64} {w : Bool} {t : Task}

/-- One page: the bits that all levels have are the permissions of the walk. -/
theorem uptrPageOk_eq (hroot : root ≠ 0) (htop : ∀ i,
      hasFlag (st.mem root i) vmmPresent = true → hasFlag (st.mem root i) vmmPse = false) :
    uptrPageOk st root w virt = userAllows st root w virt := by
  have hmask : hasFlag (vmmWrite ||| vmmUser) vmmUser = true ∧
    hasFlag (vmmWrite ||| vmmUser) vmmWrite = true := by decide
  have hand : ∀ a b, hasFlag (a &&& b) vmmUser = (hasFlag a vmmUser && hasFlag b vmmUser) ∧
      hasFlag (a &&& b) vmmWrite = (hasFlag a vmmWrite && hasFlag b vmmWrite) := by
    simp [vmmUser, vmmWrite, hasFlag_twoPow]
  have hpse := htop (pml4Index virt)
  simp only [uptrPageOk, vmmVirtFlags, userAllows, allows, path, hroot, if_false]
  generalize st.mem root (pml4Index virt) = e4 at hpse ⊢
  generalize st.mem (physOf e4) (pdptIndex virt) = e3
  generalize st.mem (physOf e3) (pdIndex virt) = e2
  generalize st.mem (physOf e2) (ptIndex virt) = e1
  -- the levels from the top: an absent entry ends the walk, and so does a large page
  cases h4 : hasFlag e4 vmmPresent
  · simp
  cases h3 : hasFlag e3 vmmPresent
  · simp
  cases hp3 : hasFlag e3 vmmPse
  · cases h2 : hasFlag e2 vmmPresent
    · simp
    cases hp2 : hasFlag e2 vmmPse
    · cases h1 : hasFlag e1 vmmPresent <;> simp [hand, hmask]
      grind
    · simp [hand, hmask]
      grind
  · simp [hand, hmask]
    grind

/-- The walk is the same for all bytes of a page. -/
theorem userAllows_page {v : BitVec 64} (h : v.toNat / pageSize = virt.toNat / pageSize) :
    userAllows st root w v = userAllows st root w virt := by
  have hpath : path v = path virt := by
    rw [path_eq_iff, ← BitVec.toNat_inj]
    simp only [pageNumber, BitVec.extractLsb'_toNat, Nat.shiftRight_eq_div_pow]
    exact congrArg (· % 2 ^ 36) h
  rw [userAllows, hpath, userAllows]

/-- The tests on the range are those of the integers. -/
theorem uptrRangeOk_range (hlen : len ≠ 0#64) : uptrRangeOk st none addr len w = true ↔
    0x1000 ≤ addr.toNat ∧ addr.toNat + len.toNat ≤ 2 ^ 47 := by
  have h0 : len.toNat ≠ 0 := by simpa [← BitVec.toNat_inj] using hlen
  simp only [uptrRangeOk, hlen, BitVec.lt_def, BitVec.le_def, BitVec.toNat_add, BitVec.toNat_sub,
    userEnd]
  grind

section

variable (huser : t.isUserspace = true) (hroot : t.pagemap ≠ 0)
  (htop : ∀ i, hasFlag (st.mem t.pagemap i) vmmPresent = true →
    hasFlag (st.mem t.pagemap i) vmmPse = false)
include huser hroot htop

theorem uptrRangeOk_iff (hlen : len ≠ 0#64) :
    uptrRangeOk st (some t) addr len w = true ↔ UserRange st t.pagemap w addr len := by
  have hsplit : uptrRangeOk st (some t) addr len w = (uptrRangeOk st none addr len w &&
      (pagesUpTo (addr &&& ~~~0xFFF#64) (((addr + len - 1#64) &&& ~~~0xFFF#64) + 0x1000#64)).all
        (uptrPageOk st t.pagemap w)) := by
    simp only [uptrRangeOk, hlen, hroot, huser]
    split_ifs <;> simp_all
  rw [hsplit, Bool.and_eq_true, uptrRangeOk_range hlen, and_assoc, UserRange]
  apply and_congr_right
  intro hlo
  apply and_congr_right
  intro hhi
  have h0 : len.toNat ≠ 0 := by simpa [← BitVec.toNat_inj] using hlen
  have hlast : (addr + len - 1#64).toNat = addr.toNat + len.toNat - 1 := by
    rw [BitVec.toNat_sub, BitVec.toNat_add]
    simp
    omega
  have hstart := toNat_and_page addr
  have hend := toNat_and_page (addr + len - 1#64)
  rw [hlast] at hend
  have hstop : ((addr + len - 1#64 &&& ~~~0xFFF#64) + 0x1000#64).toNat =
      (addr.toNat + len.toNat - 1) / pageSize * pageSize + pageSize := by
    rw [BitVec.toNat_add, hend]
    simp [pageSize]
    omega
  have hfirst : (addr &&& ~~~0xFFF#64).toNat % pageSize = 0 := hstart ▸ Nat.mul_mod_left _ _
  have hpage : ((addr + len - 1#64 &&& ~~~0xFFF#64) + 0x1000#64).toNat % pageSize = 0 := by
    rw [hstop]
    simp
  have hmem := fun q => mem_pagesUpTo (q := q) hfirst hpage
  have hbyte : ∀ i < len.toNat, (addr + BitVec.ofNat 64 i).toNat = addr.toNat + i := by
    intro i hi
    rw [BitVec.toNat_add, BitVec.toNat_ofNat]
    omega
  simp only [List.all_eq_true, uptrPageOk_eq hroot htop, userBytes, List.mem_map, List.mem_range,
    hmem, hstart, hstop]
  unfold pageSize
  constructor
  · rintro hpages a ⟨i, hi, rfl⟩
    have hi' := hbyte i hi
    have hp := toNat_and_page (addr + BitVec.ofNat 64 i)
    rw [hi'] at hp
    unfold pageSize at hp
    rw [← userAllows_page (v := (addr + BitVec.ofNat 64 i) &&& ~~~0xFFF#64)]
    · exact hpages _ (by omega)
    · unfold pageSize
      omega
  rintro hbytes p ⟨hp, hge, hlt⟩
  -- the first byte of the range in the page
  have hi : p.toNat - addr.toNat < len.toNat := by omega
  have hin := hbytes _ ⟨_, hi, rfl⟩
  rwa [userAllows_page] at hin
  rw [hbyte _ hi]
  unfold pageSize
  omega

/-- What a copy goes through may be accessed; a copy of no bytes goes through none. -/
theorem userAllows_of_uptrRangeOk (h : uptrRangeOk st (some t) addr len w = true) :
    ∀ a ∈ userBytes addr len, userAllows st t.pagemap w a = true := by
  by_cases hlen : len = 0#64
  · simp [hlen, userBytes]
  · exact ((uptrRangeOk_iff huser hroot htop hlen).mp h).2.2

/-- **User pointers**: for a user task whose pagemap has 4 KiB, 2 MiB and 1 GiB pages, a range
    of at least one byte passes exactly if user mode may access all of it; a copy stores to
    such bytes only, and what it reads depends on such bytes only. -/
theorem user_pointers_exact :
    (∀ addr len, len ≠ 0#64 →
      (syscallUptrValidate st (some t) addr len = true ↔ UserRange st t.pagemap false addr len) ∧
      (syscallUptrValidateWrite st (some t) addr len = true ↔
        UserRange st t.pagemap true addr len)) ∧
    (∀ dst src n, ∀ s ∈ (syscallCopyToUser st (some t) dst src n).2,
      userAllows st t.pagemap true s.1 = true) ∧
    ∀ read read' src n, (∀ a, userAllows st t.pagemap false a = true → read a = read' a) →
      syscallCopyFromUser st (some t) read src n = syscallCopyFromUser st (some t) read' src n := by
  have hiff : ∀ w addr len, len ≠ 0#64 →
      (uptrRangeOk st (some t) addr len w = true ↔ UserRange st t.pagemap w addr len) :=
    fun _ _ _ => uptrRangeOk_iff huser hroot htop
  refine ⟨fun addr len hlen => ⟨hiff false addr len hlen, hiff true addr len hlen⟩, ?_, ?_⟩
  · intro dst src n s hs
    unfold syscallCopyToUser at hs
    cases hok : uptrRangeOk st (some t) dst n true with
    | false => simp [hok] at hs
    | true =>
      simp only [hok] at hs
      exact userAllows_of_uptrRangeOk huser hroot htop hok _ (List.of_mem_zip hs).1
  intro read read' src n hsame
  unfold syscallCopyFromUser
  cases hok : uptrRangeOk st (some t) src n false with
  | false => rfl
  | true =>
    have hbytes := userAllows_of_uptrRangeOk huser hroot htop hok
    simp only [List.map_congr_left fun a ha => hsame a (hbytes a ha)]

end

/-- Two pages of a pagemap that leads everywhere. -/
theorem user_pointers_exact_open :
    UserRange { chainState with mem := fun _ _ => 0x7#64 } pageSize true 0x1FFF#64 0x2#64 :=
  ((user_pointers_exact (t := ⟨true, pageSize, 0, 0, 0⟩) rfl (by decide)
    fun _ _ => (by decide : hasFlag 0x7#64 vmmPse = false)).1 _ _ (by decide)).2.mp (by decide)

end Cervus.Vmm
