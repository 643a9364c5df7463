import Cervus.Net.IpFrag
import Mathlib.Data.Fintype.Card

/-! # Reassembly for honest senders

    Fragments of at most eight keys, each of which is a part of the datagram of its key, arrive in
    any order and any number of times; no timeout fires and memory is there. Then a slot is
    complete exactly when the fragments since the last delivery cover the datagram. -/

namespace Cervus.IpFrag

open List Finset

/-! ## Section 1: Honest runs -/

/-- The fragment is a part of the datagram; the last one ends where the datagram ends. -/
structure Honest (datagram : List UInt8) (f : Fragment) : Prop where
  bytes : ∀ j, f.off ≤ j → j < f.stop → f.data.getD (j - f.off) 0 = datagram.getD j 0
  stop  : if f.more then f.stop < datagram.length else f.stop = datagram.length

/-- The fragments cover every byte. -/
def Covered (fragments : List Fragment) (len : Nat) : Prop :=
  ∀ j < len, ∃ g ∈ fragments, g.off ≤ j ∧ j < g.stop

variable {datagram : Key → List UInt8} {keys : Finset Key}

/-- An honest packet with memory for its slot, or a tick at which no timeout fires. -/
def HonestLabel (datagram : Key → List UInt8) (keys : Finset Key) (s : State) : Label → Prop
  | .packet pkt _ mem => mem ≠ none ∧ ∀ f, parse pkt = some f →
      f.key ∈ keys ∧ Honest (datagram f.key) f
  | .tick i now => ¬ ((s.slots i).used = true ∧ sub64 now (s.slots i).deadline < 2 ^ 63)

/-- A datagram is delivered exactly at an arrival that completes its coverage since its last
    delivery, with the payload that was sent. -/
def Reassembles (datagram : Key → List UInt8) (keys : Finset Key) (s : State) : Prop :=
  ∀ pkt now mem f, parse pkt = some f → HonestLabel datagram keys s (.packet pkt now mem) →
    (Covered (f :: s.seen f.key) (datagram f.key).length →
      (ipFragInput s.slots f now mem).2 = some (datagram f.key)) ∧
    (¬ Covered (f :: s.seen f.key) (datagram f.key).length →
      (ipFragInput s.slots f now mem).2 = none)

/-! ## Section 2: One slot -/

/-- The slot knows exactly what the fragments told it. -/
structure Knows (slot : Slot) (fragments : List Fragment) (len : Nat) : Prop where
  units : ∀ u, Bitmap.test slot.bmap u = true ↔
    ∃ g ∈ fragments, g.firstUnit ≤ u ∧ u < g.lastUnit
  total : slot.total = 0 ∨ slot.total = len
  last  : (∃ g ∈ fragments, g.more = false) → slot.total = len

variable {msg : List UInt8} {f : Fragment} {slot : Slot} {fragments : List Fragment} {j : Nat}

theorem Honest.lastUnit_le (h : Honest msg f) : f.lastUnit ≤ (msg.length + 7) / 8 := by
  have hstop := h.stop
  unfold Fragment.lastUnit
  split at hstop <;> omega

theorem Honest.inside (h : Honest msg f) (hknows : Knows slot fragments msg.length)
    (hall : ∀ g ∈ fragments, Honest msg g) : Inside slot f := by
  unfold Inside
  split
  · intro h0
    rw [hknows.total.resolve_left h0]
    exact h.lastUnit_le
  rename_i hmore
  have hstop := h.stop
  rw [if_neg hmore] at hstop
  intro _ u hu
  obtain ⟨g, hg, -, hlast⟩ := (hknows.units u).mp hu
  have := (hall g hg).lastUnit_le
  rw [Fragment.lastUnit, hstop]
  omega

theorem Honest.total (h : Honest msg f) (hknows : Knows slot fragments msg.length) :
    f.more = false → slot.total = 0 ∨ slot.total = f.stop := by
  intro hmore
  have hstop := h.stop
  rw [if_neg (by simp [hmore])] at hstop
  rw [hstop]
  exact hknows.total

theorem Knows.fill {slot' : Slot} (hknows : Knows slot fragments msg.length) (hf : Honest msg f)
    (hfill : Filled f f.firstUnit f.lastUnit
      (if f.more then slot else { slot with total := f.stop }) slot') :
    Knows slot' (f :: fragments) msg.length := by
  have htotal : slot'.total = if f.more then slot.total else f.stop := by
    rw [hfill.total]
    split <;> rfl
  have hstop := hf.stop
  refine ⟨?_, ?_, ?_⟩
  · intro u
    have hbmap : Bitmap.test slot'.bmap u =
        (Bitmap.test slot.bmap u || decide (f.firstUnit ≤ u ∧ u < f.lastUnit)) := by
      rw [hfill.bmap]
      split <;> rfl
    rw [hbmap, Bool.or_eq_true, decide_eq_true_eq, hknows.units]
    simp only [List.mem_cons, exists_eq_or_imp]
    exact or_comm
  · rw [htotal]
    split at hstop
    · rw [if_pos ‹_›]
      exact hknows.total
    · rw [if_neg ‹_›]
      exact .inr hstop
  rintro ⟨g, hg, hmore⟩
  rw [htotal]
  split at hstop
  · rename_i hf'
    rw [if_pos hf']
    obtain rfl | hg := List.mem_cons.mp hg
    · rw [hmore] at hf'
      nomatch hf'
    · exact hknows.last ⟨g, hg, hmore⟩
  · rw [if_neg ‹_›]
    exact hstop

/-- A byte of the datagram is covered when its unit is there. -/
theorem covered_of_unit (hall : ∀ g ∈ fragments, Honest msg g) (hj : j < msg.length)
    (hunit : ∃ g ∈ fragments, g.firstUnit ≤ j / 8 ∧ j / 8 < g.lastUnit) :
    ∃ g ∈ fragments, g.off ≤ j ∧ j < g.stop := by
  obtain ⟨g, hg, hfirst, hlast⟩ := hunit
  have haligned := g.aligned
  refine ⟨g, hg, ?_, ?_⟩
  · simp only [Fragment.firstUnit] at hfirst
    omega
  cases hmore : g.more with
  | true => exact Fragment.lt_stop hmore hlast
  | false =>
    have hstop := (hall g hg).stop
    rw [if_neg (by simp [hmore])] at hstop
    omega

theorem unit_of_covered (h : ∃ g ∈ fragments, g.off ≤ j ∧ j < g.stop) :
    ∃ g ∈ fragments, g.firstUnit ≤ j / 8 ∧ j / 8 < g.lastUnit := by
  obtain ⟨g, hg, hoff, hstop⟩ := h
  refine ⟨g, hg, ?_, ?_⟩
  · simp only [Fragment.firstUnit]
    omega
  · simp only [Fragment.lastUnit]
    omega

/-- A slot is complete exactly when the datagram is covered. -/
theorem complete_iff_covered (hok : SlotOk slot fragments)
    (hknows : Knows slot fragments msg.length)
    (hall : ∀ g ∈ fragments, Honest msg g) (hlen : 1 ≤ msg.length) :
    (slot.total ≠ 0 ∧ slot.filled = (slot.total + 7) / 8) ↔ Covered fragments msg.length := by
  constructor
  · rintro ⟨h0, hcount⟩ j hj
    have htotal := hknows.total.resolve_left h0
    apply covered_of_unit hall hj
    exact (hknows.units _).mp (hok.complete h0 hcount (by omega))
  intro hcov
  -- the last byte is in a fragment that is the last one
  obtain ⟨g, hg, -, hstop⟩ := hcov (msg.length - 1) (by omega)
  have hlast : g.more = false := by
    by_contra hmore
    have := (hall g hg).stop
    rw [if_pos (by simpa using hmore)] at this
    omega
  have htotal := hknows.last ⟨g, hg, hlast⟩
  refine ⟨by omega, ?_⟩
  have hunits : slot.units = Finset.range ((slot.total + 7) / 8) := by
    ext u
    simp only [Slot.units, Finset.mem_filter, Finset.mem_range]
    constructor
    · rintro ⟨-, hu⟩
      exact (hok.inside u hu).2 (by omega)
    intro hu
    have htest := (hknows.units u).mpr
      (by simpa using unit_of_covered (hcov (u * 8) (by omega)))
    exact ⟨(hok.inside u htest).1, htest⟩
  rw [hok.filled, hunits, card_range]

/-- The bytes of a complete slot are the datagram. -/
theorem payload_eq (hok : SlotOk slot fragments) (hall : ∀ g ∈ fragments, Honest msg g)
    (htotal : slot.total = msg.length) (h0 : slot.total ≠ 0)
    (hcount : slot.filled = (slot.total + 7) / 8) :
    (slot.buf.map fun buf => (List.range slot.total).map buf) = some msg := by
  obtain ⟨buf, hbuf, hbytes⟩ := hok.payload h0 hcount
  rw [hbuf, Option.map_some, Option.some.injEq]
  apply ext_getElem
  · rw [length_map, length_range, htotal]
  intro j hj hj'
  obtain ⟨g, hg, hoff, hstop, hbyte⟩ := hbytes j (by omega)
  rw [getElem_map, getElem_range, hbyte, (hall g hg).bytes j hoff hstop]
  exact getD_eq_getElem _ _ hj'

/-- What an honest fragment does to its slot. -/
theorem absorb_honest (hok : SlotOk slot fragments) (hknows : Knows slot fragments msg.length)
    (hall : ∀ g ∈ fragments, Honest msg g) (hf : Honest msg f) (hlen : 1 ≤ msg.length) :
    (Covered (f :: fragments) msg.length →
      (absorb slot f).1.used = false ∧ (absorb slot f).2 = some msg) ∧
    (¬ Covered (f :: fragments) msg.length → (absorb slot f).2 = none ∧
      (absorb slot f).1.used = slot.used ∧ (absorb slot f).1.key = slot.key ∧
      SlotOk (absorb slot f).1 (f :: fragments) ∧
      Knows (absorb slot f).1 (f :: fragments) msg.length) := by
  obtain ⟨slot', hfill, habsorb⟩ := absorb_cases (hf.total hknows)
  have hok' := hok.fill (hf.inside hknows hall) (hf.total hknows) hfill
  have hknows' := hknows.fill hf hfill
  have hall' : ∀ g ∈ f :: fragments, Honest msg g := by
    intro g hg
    obtain rfl | hg := List.mem_cons.mp hg
    · exact hf
    · exact hall g hg
  have hiff := complete_iff_covered hok' hknows' hall' hlen
  constructor
  · intro hcov
    obtain ⟨h0, hcount⟩ := hiff.mpr hcov
    rw [habsorb, if_pos ⟨h0, hcount⟩]
    exact ⟨rfl, payload_eq hok' hall' (hknows'.total.resolve_left h0) h0 hcount⟩
  intro hcov
  rw [habsorb, if_neg fun h => hcov (hiff.mp h)]
  refine ⟨rfl, ?_, ?_, hok', hknows'⟩
  · rw [hfill.used]
    split <;> rfl
  · rw [hfill.key]
    split <;> rfl

/-! ## Section 3: All slots -/

/-- Each slot in use has a key of its own, and has what arrived for it; a key without a slot has
    nothing pending. -/
structure Tracks (datagram : Key → List UInt8) (keys : Finset Key) (s : State) : Prop where
  keys     : ∀ i, (s.slots i).used = true → (s.slots i).key ∈ keys
  distinct : ∀ i j, (s.slots i).used = true → (s.slots j).used = true →
    (s.slots i).key = (s.slots j).key → i = j
  slots    : ∀ i, (s.slots i).used = true →
    SlotOk (s.slots i) (s.seen (s.slots i).key) ∧
      Knows (s.slots i) (s.seen (s.slots i).key) (datagram (s.slots i).key).length
  absent   : ∀ key, (∀ i, (s.slots i).used = true → (s.slots i).key ≠ key) → s.seen key = []
  honest   : ∀ key, ∀ g ∈ s.seen key, Honest (datagram key) g

variable {s : State} {key : Key}

/-- A key without a slot finds a free one: the slots in use have different keys. -/
theorem Tracks.free (h : Tracks datagram keys s) (hcard : keys.card ≤ 8)
    (hkey : key ∈ keys) (hnone : slotFind s.slots key = none) : ∃ i, (s.slots i).used = false := by
  by_contra hall
  push Not at hall
  have hused : ∀ i, (s.slots i).used = true := fun i => by simpa using hall i
  have hle : (univ : Finset (Fin 8)).card ≤ (keys.erase key).card := by
    apply card_le_card_of_injOn fun i => (s.slots i).key
    · intro i _
      exact mem_erase.mpr ⟨slotFind_none hnone i (hused i), h.keys i (hused i)⟩
    · intro i _ j _ hij
      exact h.distinct i j (hused i) (hused j) hij
  rw [card_erase_of_mem hkey, card_univ, Fintype.card_fin] at hle
  omega

theorem knows_claim (slot : Slot) (buf : Bytes) (key : Key) (now len : Nat) :
    Knows (slot.claim buf key now) [] len := by
  refine ⟨fun u => ⟨fun hu => ?_, nofun⟩, .inl rfl, nofun⟩
  rw [show Bitmap.test (slot.claim buf key now).bmap u = false from Nat.zero_testBit _] at hu
  nomatch hu

section

variable (h : Tracks datagram keys s) {mem : Option Bytes}
include h

/-- The slot for an honest fragment. -/
theorem Tracks.slotFor (hcard : keys.card ≤ 8) (hkey : key ∈ keys) (now : Nat)
    (hmem : mem ≠ none) :
    ∃ i slot, slotFor s.slots key now mem = some (i, slot) ∧ slot.used = true ∧ slot.key = key ∧
      SlotOk slot (s.seen key) ∧ Knows slot (s.seen key) (datagram key).length ∧
      (∀ j, j ≠ i → (s.slots j).used = true → (s.slots j).key ≠ key) ∧
      ((s.slots i).used = true → (s.slots i).key = key) := by
  unfold IpFrag.slotFor
  cases hfind : slotFind s.slots key with
  | some i =>
    obtain ⟨hused, hk⟩ := slotFind_some hfind
    obtain ⟨hok, hknows⟩ := h.slots i hused
    rw [hk] at hok hknows
    refine ⟨i, _, rfl, hused, hk, hok, hknows, ?_, fun _ => hk⟩
    intro j hj hjused hjk
    exact hj (h.distinct j i hjused hused (hjk.trans hk.symm))
  | none =>
    have hseen : s.seen key = [] := h.absent key (slotFind_none hfind)
    obtain ⟨i, hfree⟩ : ∃ i, (finRange 8).find? (fun i => !(s.slots i).used) = some i := by
      obtain ⟨k, hk⟩ := h.free hcard hkey hfind
      exact Option.isSome_iff_exists.mp (find?_isSome.mpr ⟨k, mem_finRange k, by simp [hk]⟩)
    have hunused : (s.slots i).used = false := by simpa using find?_some hfree
    obtain ⟨buf, hbuf⟩ : ∃ buf, (s.slots i).buf.or mem = some buf := by
      obtain ⟨m, rfl⟩ := Option.ne_none_iff_exists'.mp hmem
      cases (s.slots i).buf with
      | none => exact ⟨m, rfl⟩
      | some b => exact ⟨b, rfl⟩
    refine ⟨i, (s.slots i).claim buf key now, ?_, rfl, rfl, slotOk_claim .., hseen ▸ knows_claim ..,
      fun j _ hj => slotFind_none hfind j hj, fun hu => ?_⟩
    · simp only [slotClaim, hfree, hbuf, Option.map_some]
    · rw [hunused] at hu
      nomatch hu

/-- One slot gets the key of the fragment, or becomes free; the other slots keep theirs. -/
theorem Tracks.put {s' : State} {i : Fin 8} {slot : Slot} (hkey : key ∈ keys)
    (hother : ∀ j, j ≠ i → (s.slots j).used = true → (s.slots j).key ≠ key)
    (hself : (s.slots i).used = true → (s.slots i).key = key)
    (hslots : s'.slots = Function.update s.slots i slot)
    (hseen : ∀ k, k ≠ key → s'.seen k = s.seen k)
    (hin : slot.used = true → slot.key = key ∧ SlotOk slot (s'.seen key) ∧
      Knows slot (s'.seen key) (datagram key).length)
    (hout : slot.used = false → s'.seen key = [])
    (hhonest : ∀ g ∈ s'.seen key, Honest (datagram key) g) : Tracks datagram keys s' := by
  have hold : ∀ j, j ≠ i → s'.slots j = s.slots j := fun j hj => by
    rw [hslots, Function.update_of_ne hj]
  have hnew : s'.slots i = slot := by rw [hslots, Function.update_self]
  refine ⟨?_, ?_, ?_, ?_, ?_⟩
  · intro j hj
    by_cases hji : j = i
    · rw [hji, hnew] at hj ⊢
      exact (hin hj).1 ▸ hkey
    · rw [hold j hji] at hj ⊢
      exact h.keys j hj
  · intro j k hj hk hjk
    by_cases hji : j = i <;> by_cases hki : k = i
    · rw [hji, hki]
    · rw [hji, hnew, hold k hki] at hjk
      rw [hji, hnew] at hj
      rw [hold k hki] at hk
      exact absurd (hjk.symm.trans (hin hj).1) (hother k hki hk)
    · rw [hki, hnew, hold j hji] at hjk
      rw [hki, hnew] at hk
      rw [hold j hji] at hj
      exact absurd (hjk.trans (hin hk).1) (hother j hji hj)
    · rw [hold j hji] at hj hjk
      rw [hold k hki] at hk hjk
      exact h.distinct j k hj hk hjk
  · intro j hj
    by_cases hji : j = i
    · rw [hji, hnew] at hj ⊢
      obtain ⟨hk, hok, hknows⟩ := hin hj
      rw [hk]
      exact ⟨hok, hknows⟩
    · rw [hold j hji] at hj ⊢
      rw [hseen _ (hother j hji hj)]
      exact h.slots j hj
  · intro k hk
    by_cases hkk : k = key
    · subst hkk
      apply hout
      by_contra hused
      have hused : slot.used = true := by simpa using hused
      exact hk i (hnew ▸ hused) (hnew ▸ (hin hused).1)
    rw [hseen k hkk]
    apply h.absent k
    intro j hj hjk
    by_cases hji : j = i
    · exact hkk (hjk.symm.trans (hji ▸ hself (hji ▸ hj)))
    · exact hk j (hold j hji ▸ hj) (hold j hji ▸ hjk)
  intro k g hg
  by_cases hkk : k = key
  · subst hkk
    exact hhonest g hg
  · rw [hseen k hkk] at hg
    exact h.honest k g hg

/-- An honest fragment arrives. -/
theorem Tracks.arrive (hcard : keys.card ≤ 8) (hlen : ∀ key ∈ keys, 1 ≤ (datagram key).length)
    (hkey : f.key ∈ keys) (hf : Honest (datagram f.key) f) (now : Nat)
    (hmem : mem ≠ none) :
    Tracks datagram keys (s.arrive f now mem) ∧
      (Covered (f :: s.seen f.key) (datagram f.key).length →
        (ipFragInput s.slots f now mem).2 = some (datagram f.key)) ∧
      (¬ Covered (f :: s.seen f.key) (datagram f.key).length →
        (ipFragInput s.slots f now mem).2 = none) := by
  obtain ⟨i, slot, hfor, hused, hk, hok, hknows, hother, hself⟩ := h.slotFor hcard hkey now hmem
  obtain ⟨hyes, hno⟩ := absorb_honest hok hknows (h.honest f.key) hf (hlen f.key hkey)
  have hinput : ipFragInput s.slots f now mem =
      (Function.update s.slots i (absorb slot f).1, (absorb slot f).2) := by
    simp only [ipFragInput, hfor]
  have harrive : s.arrive f now mem =
      { slots := Function.update s.slots i (absorb slot f).1
        received := Function.update s.received i (s.receivedWith f i)
        seen := Function.update s.seen f.key
          (if (absorb slot f).2 = none then f :: s.seen f.key else [])
        log := (absorb slot f).2.elim s.log fun payload =>
          (f.key, s.receivedWith f i, payload) :: s.log } := by
    simp only [State.arrive, hfor, hinput]
  rw [hinput]
  refine ⟨?_, fun hcov => (hyes hcov).2, fun hcov => (hno hcov).1⟩
  rw [harrive]
  refine h.put hkey hother hself rfl (fun k hkk => Function.update_of_ne hkk ..) ?_ ?_ ?_
  · intro hused'
    by_cases hcov : Covered (f :: s.seen f.key) (datagram f.key).length
    · rw [(hyes hcov).1] at hused'
      cases hused'
    · obtain ⟨hnone, -, hkey', hok', hknows'⟩ := hno hcov
      simp only [Function.update_self, hnone, if_true]
      exact ⟨hkey'.trans hk, hok', hknows'⟩
  · intro hfree
    by_cases hcov : Covered (f :: s.seen f.key) (datagram f.key).length
    · simp [(hyes hcov).2]
    · rw [(hno hcov).2.1, hused] at hfree
      cases hfree
  intro g hg
  simp only [Function.update_self] at hg
  split at hg
  · obtain rfl | hg := List.mem_cons.mp hg
    · exact hf
    · exact h.honest f.key g hg
  · cases hg

theorem Tracks.next (hcard : keys.card ≤ 8) (hlen : ∀ key ∈ keys, 1 ≤ (datagram key).length)
    {l : Label} (hl : HonestLabel datagram keys s l) : Tracks datagram keys (s.next l) := by
  cases l with
  | packet pkt now mem =>
    cases hp : parse pkt with
    | none =>
      simp only [State.next, hp, Option.elim]
      exact h
    | some f =>
      simp only [State.next, hp, Option.elim]
      obtain ⟨hkey, hf⟩ := hl.2 f hp
      exact (h.arrive hcard hlen hkey hf now hl.1).1
  | tick i now =>
    have hsame : ipFragTick s.slots i now = s.slots := by rw [ipFragTick, if_neg hl]
    simp only [State.next, hsame]
    exact h

end

/-- **Reassembly**: with at most eight keys, honest fragments, no timeout and memory for the slots,
    a datagram is delivered exactly when it is covered again, and as it was sent. -/
theorem honest_datagrams_reassembled (hcard : keys.card ≤ 8)
    (hlen : ∀ key ∈ keys, 1 ≤ (datagram key).length ∧ (datagram key).length ≤ maxLen)
    (h : (fragSystem.restrict (HonestLabel datagram keys)).Reachable s) :
    Reassembles datagram keys s := by
  have hlen' : ∀ key ∈ keys, 1 ≤ (datagram key).length := fun key hkey => (hlen key hkey).1
  have htracks : Tracks datagram keys s := by
    refine @System.Reachable.induct _ _ _ (Tracks datagram keys) ?_ ?_ _ h
    · rintro s ⟨hfree, hseen, -⟩
      have hnot : ∀ i, ¬ (s.slots i).used = true := fun i => by simp [hfree i]
      refine ⟨fun i hi => absurd hi (hnot i), fun i _ hi => absurd hi (hnot i),
        fun i hi => absurd hi (hnot i), fun key _ => hseen key, fun key g hg => ?_⟩
      rw [hseen key] at hg
      nomatch hg
    · rintro s l s' _ hs ⟨hl, rfl⟩
      exact hs.next hcard hlen' hl
  intro pkt now mem f hp hl
  obtain ⟨hkey, hf⟩ := hl.2 f hp
  exact (htracks.arrive hcard hlen' hkey hf now hl.1).2

theorem honest_part (s : State) (n : Fin 3) :
    HonestLabel (fun _ => message) {⟨0, 0, 0, 0⟩} s (partArrives n) := by
  refine ⟨nofun, fun f hf => ?_⟩
  cases hf.symm.trans (parse_part n).1
  have hstop : ∀ n, (parts n).stop ≤ 19 := by decide
  have hbytes : ∀ n, ∀ j < 19, (parts n).off ≤ j → j < (parts n).stop →
      (parts n).data.getD (j - (parts n).off) 0 = message.getD j 0 := by decide +kernel
  have hend : ∀ n, if (parts n).more then (parts n).stop < message.length
      else (parts n).stop = message.length := by decide +kernel
  refine ⟨?_, fun j hlo hhi => hbytes n j (hhi.trans_le (hstop n)) hlo hhi, hend n⟩
  rw [(parse_part n).2]
  exact Finset.mem_singleton_self _

/-- The last fragment has arrived, and then the second one. -/
theorem halfway_reassembles : Reassembles (fun _ => message) {⟨0, 0, 0, 0⟩} (arrived [2, 1]) ∧
    (ipFragInput (arrived [2, 1]).slots (parts 0) 0 none).2 = some message := by
  have h0 : (fragSystem.restrict (HonestLabel (fun _ => message) {⟨0, 0, 0, 0⟩})).Reachable
      (arrived []) := .init ⟨fun _ => rfl, fun _ => rfl, rfl⟩
  have h1 := reachable_part h0 (honest_part _ 2)
  have h2 := reachable_part h1 (honest_part _ 1)
  exact ⟨honest_datagrams_reassembled (by decide) (fun _ _ => by decide) h2, by decide +kernel⟩

end Cervus.IpFrag
