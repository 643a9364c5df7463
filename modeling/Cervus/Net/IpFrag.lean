import Cervus.Framework.Bitmap
import Cervus.Framework.System
import Cervus.Framework.Word
import Mathlib.Data.List.FinRange

/-! # Reassembly of IP fragments (`net/ip_frag.c`)

    A datagram is collected in one of eight slots: a buffer, a bitmap of the 8-byte units that
    arrived, their number, and the total length once the last fragment is known. It is delivered
    when the number of units is the number that the total length needs.

    Memory from `malloc` has contents of its own, so the buffer is an argument of the call. Beside
    the slots the state keeps what arrived for a slot since it was claimed, what arrived for a
    key since its last delivery, and the deliveries. The copy of the first header for ICMP and the
    statistics are left out. -/

namespace Cervus.IpFrag

open List Function Finset

/-! ## Section 1: Fragments -/

/-- `FRAG_MAXLEN` -/
def maxLen : Nat := 65535

/-- `FRAG_UNITS` -/
def maxUnits : Nat := maxLen / 8 + 1

/-- `FRAG_TIMEOUT_NS` -/
def timeoutNs : Nat := 30000000000

structure Key where
  src   : Nat
  dst   : Nat
  id    : Nat
  proto : Nat
  deriving DecidableEq

/-- A fragment that passes the checks of `ip_frag_input`. -/
structure Fragment where
  key     : Key
  off     : Nat
  more    : Bool
  data    : List UInt8
  aligned : off % 8 = 0
  fits    : off + data.length ≤ maxLen
  whole   : more = true → data.length % 8 = 0 ∧ data.length ≠ 0
  deriving DecidableEq

/-- The end of the fragment in the datagram. -/
def Fragment.stop (f : Fragment) : Nat := f.off + f.data.length

/-- The units that the fragment touches begin here, and end before `lastUnit`. -/
def Fragment.firstUnit (f : Fragment) : Nat := f.off / 8

def Fragment.lastUnit (f : Fragment) : Nat := (f.stop + 7) / 8

/-- The first part of `ip_frag_input`, up to the lock. -/
def parse (pkt : List UInt8) : Option Fragment :=
  let p : Bytes := (pkt.getD · 0)
  let ihl := (p 0).toNat % 16 * 4
  let off := be16 p 6 % 8192 * 8
  let more := decide (be16 p 6 / 8192 % 2 = 1)
  let data := pkt.drop ihl
  if ihl < 20 ∨ pkt.length < ihl then none
  else if hempty : data.length = 0 ∧ more = true then none
  else if hfits : off + data.length > maxLen then none
  else if hwhole : more = true ∧ data.length % 8 ≠ 0 then none
  else some
    { key := ⟨be32 p 12, be32 p 16, be16 p 4, (p 9).toNat⟩
      off, more, data
      aligned := Nat.mul_mod_left _ _
      fits := Nat.le_of_not_lt hfits
      whole := fun h => ⟨by_contra fun hne => hwhole ⟨h, hne⟩, fun h0 => hempty ⟨h0, h⟩⟩ }

/-! ## Section 2: Slots -/

/-- `frag_t` -/
structure Slot where
  used     : Bool
  key      : Key
  total    : Nat
  filled   : Nat
  deadline : Nat
  buf      : Option Bytes
  bmap     : Bytes

def Slot.reset (f : Slot) : Slot :=
  { f with used := false, total := 0, filled := 0, bmap := fun _ => 0 }

/-- `g_frags`, of `FRAG_SLOTS` slots. -/
abbrev Slots := Fin 8 → Slot

def slotFind (s : Slots) (key : Key) : Option (Fin 8) :=
  (List.finRange 8).find? fun i => (s i).used && (s i).key = key

/-- The slot with the earliest deadline, the first of them. -/
def oldest (s : Slots) : Fin 8 :=
  (List.finRange 8).foldl (fun j i => if (s i).deadline < (s j).deadline then i else j) 0

/-- A slot that is taken for a new key. -/
def Slot.claim (f : Slot) (buf : Bytes) (key : Key) (now : Nat) : Slot :=
  { f.reset with used := true, key := key, deadline := u64 (now + timeoutNs), buf := some buf }

/-- `slot_claim`, with the key; `mem` is what `malloc` returns. -/
def slotClaim (s : Slots) (key : Key) (now : Nat) (mem : Option Bytes) : Option (Fin 8 × Slot) :=
  match (List.finRange 8).find? fun i => !(s i).used with
  | some i => ((s i).buf.or mem).map fun buf => (i, (s i).claim buf key now)
  | none =>
    (s (oldest s)).buf.map fun buf => (oldest s, (s (oldest s)).claim buf key now)

/-- The slot of the key, or a new one. -/
def slotFor (s : Slots) (key : Key) (now : Nat) (mem : Option Bytes) : Option (Fin 8 × Slot) :=
  match slotFind s key with
  | some i => some (i, s i)
  | none => slotClaim s key now mem

/-- `memcpy(f->buf + b, data + (b - off), n)` -/
def copyBytes (f : Fragment) (b n : Nat) (buf : Bytes) : Bytes := fun j =>
  if b ≤ j ∧ j < b + n then f.data.getD (j - f.off) 0 else buf j

/-- The body of the loop of `bmap_fill`. -/
def fillUnit (f : Fragment) (u : Nat) (slot : Slot) : Slot :=
  if Bitmap.test slot.bmap u then slot
  else
    let b := if u * 8 < f.off then f.off else u * 8
    let n := if u * 8 < f.off then 8 - (f.off - u * 8) else 8
    let n := if b + n > f.stop then f.stop - b else n
    { slot with
      bmap := Bitmap.set slot.bmap u
      filled := slot.filled + 1
      buf := slot.buf.map (copyBytes f b n) }

def fillLoop (f : Fragment) : Nat → Nat → Slot → Slot
  | 0, _, slot => slot
  | k + 1, u, slot => fillLoop f k (u + 1) (fillUnit f u slot)

def bmapFill (f : Fragment) (slot : Slot) : Slot :=
  fillLoop f (f.lastUnit - f.firstUnit) f.firstUnit slot

/-- The part of `ip_frag_input` on the slot of the key; the payload goes to `ip_deliver`. -/
def absorb (slot : Slot) (f : Fragment) : Slot × Option (List UInt8) :=
  if f.more = false ∧ slot.total ≠ 0 ∧ slot.total ≠ f.stop then (slot.reset, none)
  else
    let slot := bmapFill f (if f.more then slot else { slot with total := f.stop })
    if slot.total ≠ 0 ∧ slot.filled = (slot.total + 7) / 8 then
      ({ slot.reset with buf := none }, slot.buf.map fun buf => (List.range slot.total).map buf)
    else (slot, none)

/-- `ip_frag_input`, for a fragment that passes the checks. -/
def ipFragInput (s : Slots) (f : Fragment) (now : Nat) (mem : Option Bytes) :
    Slots × Option (List UInt8) :=
  match slotFor s f.key now mem with
  | none => (s, none)
  | some (i, slot) => (Function.update s i (absorb slot f).1, (absorb slot f).2)

/-- `ip_frag_tick`, on one slot. -/
def ipFragTick (s : Slots) (i : Fin 8) (now : Nat) : Slots :=
  if (s i).used ∧ sub64 now (s i).deadline < 2 ^ 63 then Function.update s i (s i).reset else s

/-! ## Section 3: Runs -/

structure State where
  slots    : Slots
  /-- What arrived for the slot since it was claimed. -/
  received : Fin 8 → List Fragment
  /-- What arrived for the key since its last delivery. -/
  seen     : Key → List Fragment
  /-- The payloads, each with what its slot had received. -/
  log      : List (Key × List Fragment × List UInt8)

inductive Label where
  | packet (pkt : List UInt8) (now : Nat) (mem : Option Bytes)
  | tick (i : Fin 8) (now : Nat)

/-- What the slot of the fragment has received with it. -/
def State.receivedWith (s : State) (f : Fragment) (i : Fin 8) : List Fragment :=
  f :: if slotFind s.slots f.key = some i then s.received i else []

/-- A fragment arrives. -/
def State.arrive (s : State) (f : Fragment) (now : Nat) (mem : Option Bytes) : State :=
  match slotFor s.slots f.key now mem with
  | none => s
  | some (i, _) =>
    let r := ipFragInput s.slots f now mem
    { slots := r.1
      received := Function.update s.received i (s.receivedWith f i)
      seen := Function.update s.seen f.key (if r.2 = none then f :: s.seen f.key else [])
      log := r.2.elim s.log fun payload => (f.key, s.receivedWith f i, payload) :: s.log }

def State.next (s : State) : Label → State
  | .packet pkt now mem => (parse pkt).elim s fun f => s.arrive f now mem
  | .tick i now => { s with slots := ipFragTick s.slots i now }

/-- All slots are free. -/
def fragSystem : System State Label where
  init s := (∀ i, (s.slots i).used = false) ∧ (∀ key, s.seen key = []) ∧ s.log = []
  step s l s' := s' = s.next l

/-! ## Section 4: Filling -/

/-- The units that arrived. -/
def Slot.units (slot : Slot) : Finset Nat :=
  (Finset.range maxUnits).filter fun u => Bitmap.test slot.bmap u = true

theorem Fragment.lastUnit_le (f : Fragment) : f.lastUnit ≤ maxUnits := by
  have := f.fits
  simp only [Fragment.lastUnit, Fragment.stop, maxUnits, maxLen] at *
  omega

/-- The bytes of the units `first ≤ u < last` that were missing are replaced by those of the
    fragment. -/
def Merged (f : Fragment) (bmap : Bytes) (first last : Nat) (buf buf' : Bytes) : Prop :=
  ∀ j, buf' j = if Bitmap.test bmap (j / 8) = false ∧ first ≤ j / 8 ∧ j / 8 < last ∧ j < f.stop
    then f.data.getD (j - f.off) 0 else buf j

/-- What filling a range of units does to a slot. -/
structure Filled (f : Fragment) (first last : Nat) (slot slot' : Slot) : Prop where
  used   : slot'.used = slot.used
  key    : slot'.key = slot.key
  total  : slot'.total = slot.total
  bmap   : ∀ u, Bitmap.test slot'.bmap u =
    (Bitmap.test slot.bmap u || decide (first ≤ u ∧ u < last))
  filled : last ≤ maxUnits → slot.filled = slot.units.card → slot'.filled = slot'.units.card
  buf    : ∀ buf, slot.buf = some buf →
    ∃ buf', slot'.buf = some buf' ∧ Merged f slot.bmap first last buf buf'

variable {f : Fragment} {u j now : Nat} {received : List Fragment} {slot : Slot} {key : Key}
  {i : Fin 8} {mem : Option Bytes} {s : State}

theorem fillUnit_spec (hu : f.off ≤ u * 8) (slot : Slot) :
    Filled f u (u + 1) slot (fillUnit f u slot) := by
  unfold fillUnit
  split
  · rename_i hset
    refine ⟨rfl, rfl, rfl, ?_, fun _ h => h, ?_⟩
    · intro v
      by_cases hv : u ≤ v ∧ v < u + 1
      · rw [show v = u by omega, hset]
        rfl
      · rw [decide_eq_false hv, Bool.or_false]
    intro buf hbuf
    refine ⟨buf, hbuf, fun j => (if_neg ?_).symm⟩
    rintro ⟨hclear, hlo, hhi, -⟩
    rw [show j / 8 = u by omega, hset] at hclear
    nomatch hclear
  rename_i hclear
  have hclear : Bitmap.test slot.bmap u = false := by simpa using hclear
  have htest : ∀ v, Bitmap.test (Bitmap.set slot.bmap u) v =
      (Bitmap.test slot.bmap v || decide (u ≤ v ∧ v < u + 1)) := by
    intro v
    rw [Bitmap.test_set]
    by_cases hv : v = u
    · simp [hv]
    · have hother : ¬ (u ≤ v ∧ v < u + 1) := by omega
      rw [decide_eq_false hother, Bool.or_false]
      simp [hv]
  refine ⟨rfl, rfl, rfl, htest, ?_, ?_⟩
  · intro hlast hcount
    have hunits : ({ slot with bmap := Bitmap.set slot.bmap u } : Slot).units =
        insert u slot.units := by
      ext v
      simp only [Slot.units, Finset.mem_filter, Finset.mem_range, mem_insert, htest]
      by_cases hv : v = u
      · simp [hv]
        omega
      · have hother : ¬ (u ≤ v ∧ v < u + 1) := by omega
        rw [decide_eq_false hother, Bool.or_false]
        simp [hv]
    have hnot : u ∉ slot.units := by simp [Slot.units, hclear]
    show slot.filled + 1 = ({ slot with bmap := Bitmap.set slot.bmap u } : Slot).units.card
    rw [hunits, card_insert_of_notMem hnot, hcount]
  intro buf hbuf
  simp only [hbuf, if_neg (by omega : ¬ u * 8 < f.off)]
  refine ⟨_, rfl, fun j => ?_⟩
  unfold copyBytes
  congr 1
  apply propext
  constructor
  · rintro ⟨hlo, hhi⟩
    have hj : j / 8 = u := by
      split at hhi <;> omega
    refine ⟨hj ▸ hclear, by omega, by omega, ?_⟩
    split at hhi <;> omega
  · rintro ⟨-, hlo, hhi, hstop⟩
    refine ⟨by omega, ?_⟩
    split <;> omega

theorem Filled.trans {a b c : Nat} {s1 s2 s3 : Slot} (h1 : Filled f a b s1 s2)
    (h2 : Filled f b c s2 s3) (hab : a ≤ b) (hbc : b ≤ c) : Filled f a c s1 s3 := by
  refine ⟨h2.used.trans h1.used, h2.key.trans h1.key, h2.total.trans h1.total, ?_, ?_, ?_⟩
  · intro u
    rw [h2.bmap, h1.bmap, Bool.or_assoc, ← Bool.decide_or]
    congr 2
    apply propext
    omega
  · intro hc hcount
    exact h2.filled hc (h1.filled (by omega) hcount)
  intro buf hbuf
  obtain ⟨buf2, hbuf2, hm1⟩ := h1.buf buf hbuf
  obtain ⟨buf3, hbuf3, hm2⟩ := h2.buf buf2 hbuf2
  refine ⟨buf3, hbuf3, fun j => ?_⟩
  rw [hm2 j, hm1 j, h1.bmap]
  by_cases hset : Bitmap.test s1.bmap (j / 8) = false
  · by_cases hmid : a ≤ j / 8 ∧ j / 8 < b
    · simp [hset, hmid, show ¬ b ≤ j / 8 by omega, show j / 8 < c by omega]
    simp only [hset, hmid, Bool.false_or, decide_false, true_and]
    by_cases hlast : b ≤ j / 8 ∧ j / 8 < c ∧ j < f.stop
    · rw [if_pos hlast, if_pos ⟨by omega, hlast.2⟩]
    · rw [if_neg hlast, if_neg (by omega), if_neg (by omega)]
  · simp [hset]

theorem fillLoop_spec (k u : Nat) (hu : f.off ≤ u * 8) (slot : Slot) :
    Filled f u (u + k) slot (fillLoop f k u slot) := by
  induction k generalizing u slot with
  | zero =>
    refine ⟨rfl, rfl, rfl, ?_, fun _ h => h, ?_⟩
    · intro v
      simp [fillLoop]
    · intro buf hbuf
      exact ⟨buf, hbuf, fun j => (if_neg (by omega)).symm⟩
  | succ k ih =>
    have hrest := ih (u + 1) (by omega) (fillUnit f u slot)
    rw [show u + 1 + k = u + (k + 1) by omega] at hrest
    exact (fillUnit_spec hu slot).trans hrest (by omega) (by omega)

theorem bmapFill_spec (f : Fragment) (slot : Slot) :
    Filled f f.firstUnit f.lastUnit slot (bmapFill f slot) := by
  have haligned := f.aligned
  have hle : f.firstUnit ≤ f.lastUnit := by
    simp only [Fragment.firstUnit, Fragment.lastUnit, Fragment.stop]
    omega
  have h := fillLoop_spec (f := f) (f.lastUnit - f.firstUnit) f.firstUnit
    (by simp only [Fragment.firstUnit]; omega) slot
  rwa [Nat.add_sub_cancel' hle] at h

/-! ## Section 5: Every byte was supplied -/

/-- A fragment of the list has this byte at this place. -/
def Supplied (received : List Fragment) (j : Nat) (byte : UInt8) : Prop :=
  ∃ g ∈ received, g.off ≤ j ∧ j < g.stop ∧ byte = g.data.getD (j - g.off) 0

/-- A slot in use, and what it received. A unit that the last fragment fills in part is complete up
    to the total length. -/
structure SlotOk (slot : Slot) (received : List Fragment) : Prop where
  filled : slot.filled = slot.units.card
  inside : ∀ u, Bitmap.test slot.bmap u = true →
    u < maxUnits ∧ (slot.total ≠ 0 → u < (slot.total + 7) / 8)
  bytes  : ∃ buf, slot.buf = some buf ∧ ∀ j, Bitmap.test slot.bmap (j / 8) = true →
    slot.total ≠ 0 ∧ slot.total ≤ j ∨ Supplied received j (buf j)

/-- The fragment does not contradict the total length: with it, no unit lies behind the end. -/
def Inside (slot : Slot) (f : Fragment) : Prop :=
  if f.more then slot.total ≠ 0 → f.lastUnit ≤ (slot.total + 7) / 8
  else f.stop ≠ 0 → ∀ u, Bitmap.test slot.bmap u = true → u < f.lastUnit

theorem Supplied.cons {b : UInt8} (h : Supplied received j b) (f : Fragment) :
    Supplied (f :: received) j b := by
  obtain ⟨g, hg, hrest⟩ := h
  exact ⟨g, List.mem_cons_of_mem _ hg, hrest⟩

/-- A unit of a fragment that is not the last is complete. -/
theorem Fragment.lt_stop (hmore : f.more = true) (hj : j / 8 < f.lastUnit) : j < f.stop := by
  have haligned := f.aligned
  have hwhole := (f.whole hmore).1
  simp only [Fragment.lastUnit, Fragment.stop] at *
  omega

/-- The slot after the fragment, before the test for completeness. -/
theorem SlotOk.fill {slot' : Slot} (h : SlotOk slot received) (hin : Inside slot f)
    (hsame : f.more = false → slot.total = 0 ∨ slot.total = f.stop)
    (hfill : Filled f f.firstUnit f.lastUnit
      (if f.more then slot else { slot with total := f.stop }) slot') :
    SlotOk slot' (f :: received) := by
  have hbmap : ∀ u, Bitmap.test slot'.bmap u =
      (Bitmap.test slot.bmap u || decide (f.firstUnit ≤ u ∧ u < f.lastUnit)) := by
    intro u
    rw [hfill.bmap]
    split <;> rfl
  have htotal : slot'.total = if f.more then slot.total else f.stop := by
    rw [hfill.total]
    split <;> rfl
  obtain ⟨buf, hbuf, hbytes⟩ := h.bytes
  obtain ⟨buf', hbuf', hmerged⟩ := hfill.buf buf (by split <;> exact hbuf)
  rw [show (if f.more then slot else { slot with total := f.stop }).bmap = slot.bmap by
    split <;> rfl] at hmerged
  refine ⟨?_, ?_, ⟨buf', hbuf', ?_⟩⟩
  · refine hfill.filled f.lastUnit_le ?_
    split <;> exact h.filled
  · intro u hu
    rw [hbmap, Bool.or_eq_true, decide_eq_true_eq] at hu
    have hlast := f.lastUnit_le
    rw [htotal]
    unfold Inside at hin
    cases hmore : f.more with
    | true =>
      rw [hmore] at hin
      simp only [if_true] at hin ⊢
      obtain hu | hu := hu
      · exact h.inside u hu
      · exact ⟨by omega, fun h0 => by have := hin h0; omega⟩
    | false =>
      rw [hmore] at hin
      obtain hu | hu := hu
      · exact ⟨(h.inside u hu).1, fun h0 => hin h0 u hu⟩
      · exact ⟨by omega, fun _ => hu.2⟩
  intro j hj
  rw [hbmap, Bool.or_eq_true, decide_eq_true_eq] at hj
  rw [htotal]
  have haligned := f.aligned
  by_cases hset : Bitmap.test slot.bmap (j / 8) = true
  · -- an old unit keeps its bytes
    have hkeep : buf' j = buf j := by
      rw [hmerged j, if_neg (by simp [hset])]
    rw [hkeep]
    cases hmore : f.more with
    | true =>
      obtain hend | hsup := hbytes j hset
      · exact .inl hend
      · exact .inr (hsup.cons f)
    | false =>
      obtain ⟨h0, hend⟩ | hsup := hbytes j hset
      · refine .inl ?_
        obtain hz | he := hsame hmore
        · exact absurd hz h0
        · simpa [← he] using ⟨h0, hend⟩
      · exact .inr (hsup.cons f)
  have hnew := hj.resolve_left hset
  have hoff : f.off ≤ j := by
    simp only [Fragment.firstUnit] at hnew
    omega
  by_cases hstop : j < f.stop
  · refine .inr ⟨f, List.mem_cons_self, hoff, hstop, ?_⟩
    rw [hmerged j, if_pos ⟨by simpa using hset, hnew.1, hnew.2, hstop⟩]
  -- the rest of the last unit of the datagram
  refine .inl ?_
  cases hmore : f.more with
  | true => exact absurd (Fragment.lt_stop hmore hnew.2) hstop
  | false =>
    simp only [Bool.false_eq_true, if_false]
    simp only [Fragment.firstUnit, Fragment.lastUnit, Fragment.stop] at *
    omega

/-- A slot whose count is complete has every unit. -/
theorem SlotOk.complete (h : SlotOk slot received) (h0 : slot.total ≠ 0)
    (hcount : slot.filled = (slot.total + 7) / 8) (hu : u < (slot.total + 7) / 8) :
    Bitmap.test slot.bmap u = true := by
  have hsub : slot.units ⊆ Finset.range ((slot.total + 7) / 8) := by
    intro v hv
    simp only [Slot.units, Finset.mem_filter] at hv
    exact Finset.mem_range.mpr ((h.inside v hv.2).2 h0)
  have heq : slot.units = Finset.range ((slot.total + 7) / 8) := by
    apply eq_of_subset_of_card_le hsub
    rw [card_range, ← hcount, h.filled]
  have hmem : u ∈ slot.units := heq ▸ Finset.mem_range.mpr hu
  simp only [Slot.units, Finset.mem_filter] at hmem
  exact hmem.2

/-- A fragment that does not contradict the total length is filled in; then the slot is complete,
    and its bytes are delivered, or it stays. -/
theorem absorb_cases (hsame : f.more = false → slot.total = 0 ∨ slot.total = f.stop) :
    ∃ slot', Filled f f.firstUnit f.lastUnit
        (if f.more then slot else { slot with total := f.stop }) slot' ∧
      absorb slot f = if slot'.total ≠ 0 ∧ slot'.filled = (slot'.total + 7) / 8 then
        ({ slot'.reset with buf := none },
          slot'.buf.map fun buf => (List.range slot'.total).map buf)
      else (slot', none) := by
  refine ⟨_, bmapFill_spec f _, ?_⟩
  rw [absorb, if_neg]
  rintro ⟨hmore, h0, hne⟩
  exact (hsame hmore).elim h0 hne

/-- The bytes of a complete slot were supplied. -/
theorem SlotOk.payload (h : SlotOk slot received) (h0 : slot.total ≠ 0)
    (hcount : slot.filled = (slot.total + 7) / 8) :
    ∃ buf, slot.buf = some buf ∧ ∀ j < slot.total, Supplied received j (buf j) := by
  obtain ⟨buf, hbuf, hbytes⟩ := h.bytes
  refine ⟨buf, hbuf, fun j hj => ?_⟩
  obtain ⟨-, hend⟩ | hsup := hbytes j (h.complete h0 hcount (by omega))
  · omega
  · exact hsup

/-- What the slot of a fragment becomes: it stays in use, or it is free; a payload has only bytes
    that were supplied. -/
theorem absorb_spec (h : SlotOk slot received) (hin : Inside slot f) :
    ((absorb slot f).1.used = true → SlotOk (absorb slot f).1 (f :: received)) ∧
      (absorb slot f).1.key = slot.key ∧
      ∀ payload, (absorb slot f).2 = some payload →
        ∀ j byte, payload[j]? = some byte → Supplied (f :: received) j byte := by
  by_cases hsame : f.more = false → slot.total = 0 ∨ slot.total = f.stop
  · obtain ⟨slot', hfill, habsorb⟩ := absorb_cases hsame
    have hok := h.fill hin hsame hfill
    have hkey : slot'.key = slot.key := by
      rw [hfill.key]
      split <;> rfl
    rw [habsorb]
    split
    · rename_i hdone
      refine ⟨nofun, hkey, ?_⟩
      intro payload hpayload j byte hj
      obtain ⟨buf, hbuf, hbytes⟩ := hok.payload hdone.1 hdone.2
      simp only [hbuf, Option.map_some, Option.some.injEq] at hpayload
      subst hpayload
      simp only [List.getElem?_map, Option.map_eq_some_iff] at hj
      obtain ⟨j', hj', rfl⟩ := hj
      obtain ⟨hlt, rfl⟩ := List.getElem?_eq_some_iff.mp hj'
      rw [length_range] at hlt
      simp only [getElem_range]
      exact hbytes j hlt
    · exact ⟨fun _ => hok, hkey, nofun⟩
  · push Not at hsame
    rw [absorb, if_pos hsame]
    exact ⟨nofun, rfl, nofun⟩

theorem slotFind_some {s : Slots} (h : slotFind s key = some i) :
    (s i).used = true ∧ (s i).key = key := by
  simpa using find?_some h

theorem slotFind_none {s : Slots} (h : slotFind s key = none) (i : Fin 8) :
    (s i).used = true → (s i).key ≠ key := by
  simpa using find?_eq_none.mp h i (mem_finRange i)

/-- A slot that was claimed is empty. -/
theorem slotOk_claim (slot : Slot) (buf : Bytes) (key : Key) (now : Nat)
    (received : List Fragment) :
    SlotOk (slot.claim buf key now) received := by
  have hclear : ∀ u, Bitmap.test (fun _ => 0) u = false := fun u => Nat.zero_testBit _
  have hnone : ∀ u, ¬ Bitmap.test (slot.claim buf key now).bmap u = true := fun u hu => by
    rw [show (slot.claim buf key now).bmap = fun _ => 0 from rfl, hclear] at hu
    nomatch hu
  refine ⟨?_, fun u hu => absurd hu (hnone u), buf, rfl, fun j hj => absurd hj (hnone _)⟩
  show 0 = (slot.claim buf key now).units.card
  rw [eq_comm, card_eq_zero, Slot.units, filter_eq_empty_iff]
  exact fun u _ => hnone u

/-- The slot of a fragment is the one that has its key, or one that was claimed for it. -/
theorem slotFor_cases {s : Slots} (h : slotFor s key now mem = some (i, slot)) :
    slotFind s key = some i ∧ slot = s i ∨
      slotFind s key = none ∧ ∃ buf, slot = (s i).claim buf key now := by
  unfold slotFor at h
  split at h
  · rename_i j hfind
    cases h
    exact .inl ⟨hfind, rfl⟩
  rename_i hfind
  refine .inr ⟨hfind, ?_⟩
  unfold slotClaim at h
  split at h
  · obtain ⟨buf, -, he⟩ := Option.map_eq_some_iff.mp h
    cases he
    exact ⟨buf, rfl⟩
  · obtain ⟨buf, -, he⟩ := Option.map_eq_some_iff.mp h
    cases he
    exact ⟨buf, rfl⟩

/-- Every byte of a payload is a byte of a fragment of that key, at its place, that arrived since
    the slot was claimed. -/
def NoLeak (s : State) : Prop :=
  ∀ key received payload, (key, received, payload) ∈ s.log →
    (∀ g ∈ received, g.key = key) ∧
      ∀ j byte, payload[j]? = some byte → Supplied received j byte

structure Inv (s : State) : Prop where
  slots : ∀ i, (s.slots i).used = true → SlotOk (s.slots i) (s.received i)
  keys  : ∀ i, (s.slots i).used = true → ∀ g ∈ s.received i, g.key = (s.slots i).key
  log   : NoLeak s

/-- The packet does not contradict the total length that its slot knows. -/
def Consistent (s : State) : Label → Prop
  | .packet pkt _ _ => ∀ f i, parse pkt = some f → slotFind s.slots f.key = some i →
      Inside (s.slots i) f
  | .tick _ _ => True

theorem inside_claim (slot : Slot) (buf : Bytes) (f : Fragment) (now : Nat) :
    Inside (slot.claim buf f.key now) f := by
  unfold Inside
  split
  · exact fun h0 => absurd rfl h0
  · intro _ u hu
    rw [show Bitmap.test (slot.claim buf f.key now).bmap u = false from Nat.zero_testBit _] at hu
    nomatch hu

/-- The slot of a fragment, before the fragment is absorbed. -/
theorem Inv.slotFor (h : Inv s) (hfor : slotFor s.slots f.key now mem = some (i, slot))
    (hin : ∀ i, slotFind s.slots f.key = some i → Inside (s.slots i) f) :
    ∃ received, s.receivedWith f i = f :: received ∧ SlotOk slot received ∧ Inside slot f ∧
      slot.key = f.key ∧ ∀ g ∈ received, g.key = f.key := by
  unfold State.receivedWith
  obtain ⟨hfind, rfl⟩ | ⟨hfind, buf, rfl⟩ := slotFor_cases hfor
  · obtain ⟨hused, hkey⟩ := slotFind_some hfind
    rw [if_pos hfind]
    exact ⟨_, rfl, h.slots i hused, hin i hfind, hkey, hkey ▸ h.keys i hused⟩
  · rw [if_neg (by rw [hfind]; nofun)]
    exact ⟨_, rfl, slotOk_claim .., inside_claim .., rfl, nofun⟩

theorem Inv.arrive (h : Inv s) (hin : ∀ i, slotFind s.slots f.key = some i → Inside (s.slots i) f) :
    Inv (s.arrive f now mem) := by
  unfold State.arrive
  split
  · exact h
  rename_i i slot hfor
  obtain ⟨received, hwith, hok, hinside, hkey, hkeys⟩ := h.slotFor hfor hin
  obtain ⟨hused, hkey', hsupplied⟩ := absorb_spec hok hinside
  have hall : ∀ g ∈ f :: received, g.key = f.key := by
    intro g hg
    obtain rfl | hg := List.mem_cons.mp hg
    · rfl
    · exact hkeys g hg
  have hinput : ipFragInput s.slots f now mem =
      (Function.update s.slots i (absorb slot f).1, (absorb slot f).2) := by
    simp only [ipFragInput, hfor]
  rw [hinput, hwith]
  refine ⟨?_, ?_, ?_⟩
  · intro k hk
    by_cases hki : k = i
    · subst hki
      simp only [update_self] at hk ⊢
      exact hused hk
    · simp only [update_of_ne hki] at hk ⊢
      exact h.slots k hk
  · intro k hk
    by_cases hki : k = i
    · subst hki
      simp only [update_self, hkey', hkey]
      exact hall
    · simp only [update_of_ne hki] at hk ⊢
      exact h.keys k hk
  intro key rs payload hmem
  cases hout : (absorb slot f).2 with
  | none =>
    rw [hout] at hmem
    exact h.log key rs payload hmem
  | some p =>
    rw [hout] at hmem
    obtain he | hold := List.mem_cons.mp hmem
    · cases he
      exact ⟨hall, hsupplied _ hout⟩
    · exact h.log key rs payload hold

theorem Inv.next (h : Inv s) {l : Label} (hl : Consistent s l) : Inv (s.next l) := by
  cases l with
  | packet pkt now mem =>
    cases hp : parse pkt with
    | none =>
      simp only [State.next, hp, Option.elim]
      exact h
    | some f =>
      simp only [State.next, hp, Option.elim]
      exact h.arrive fun i hi => hl f i hp hi
  | tick i now =>
    have hkept : ∀ k, ((s.next (.tick i now)).slots k).used = true →
        (s.next (.tick i now)).slots k = s.slots k := by
      intro k hk
      simp only [State.next, ipFragTick] at hk ⊢
      split at hk
      · by_cases hki : k = i
        · subst hki
          rw [update_self] at hk
          nomatch hk
        · rw [if_pos ‹_›, update_of_ne hki]
      · rw [if_neg ‹_›]
    refine ⟨fun k hk => ?_, fun k hk => ?_, h.log⟩
    · have he := hkept k hk
      rw [he] at hk ⊢
      exact h.slots k hk
    · have he := hkept k hk
      rw [he] at hk ⊢
      exact h.keys k hk

theorem inv_of_reachable (h : (fragSystem.restrict Consistent).Reachable s) : Inv s := by
  refine @System.Reachable.induct _ _ _ Inv ?_ ?_ _ h
  · rintro s ⟨hfree, -, hlog⟩
    refine ⟨fun i hi => ?_, fun i hi => ?_, fun key rs payload hmem => ?_⟩
    · rw [hfree i] at hi
      nomatch hi
    · rw [hfree i] at hi
      nomatch hi
    · rw [hlog] at hmem
      nomatch hmem
  · rintro s l s' _ hs ⟨hl, rfl⟩
    exact hs.next hl

/-- **No leak**, where no packet contradicts the total length: every byte that is delivered was
    supplied. -/
theorem delivered_bytes_supplied {s : State} (h : (fragSystem.restrict Consistent).Reachable s) :
    NoLeak s := (inv_of_reachable h).log

/-- No slot is in use. -/
def emptyState : State :=
  ⟨fun _ => ⟨false, ⟨0, 0, 0, 0⟩, 0, 0, 0, none, fun _ => 0⟩, fun _ => [], fun _ => [], []⟩

/-- A packet with a header of 20 bytes, of which only the field of the offset is not zero. -/
def packet (hi lo : UInt8) (data : List UInt8) : List UInt8 :=
  [0x45, 0, 0, 0, 0, 0, hi, lo, 0, 0, 0, 0, 0, 0, 0, 0, 0, 0, 0, 0] ++ data

def message : List UInt8 := (List.range 19).map fun j => UInt8.ofNat (j + 1)

/-- The fragments of the datagram. -/
def parts (n : Fin 3) : Fragment :=
  [⟨⟨0, 0, 0, 0⟩, 0, true, [1, 2, 3, 4, 5, 6, 7, 8], by decide, by decide, by decide⟩,
    ⟨⟨0, 0, 0, 0⟩, 8, true, [9, 10, 11, 12, 13, 14, 15, 16], by decide, by decide, by decide⟩,
    ⟨⟨0, 0, 0, 0⟩, 16, false, [17, 18, 19], by decide, by decide, by decide⟩].get n

/-- The packet with a fragment of the datagram. -/
def partPacket (n : Fin 3) : List UInt8 :=
  packet (if (parts n).more then 0x20 else 0) (.ofNat n) (parts n).data

def partArrives (n : Fin 3) : Label := .packet (partPacket n) 0 (some fun _ => 0x55)

/-- These fragments have arrived. -/
def arrived (ns : List (Fin 3)) : State :=
  ns.foldl (fun s n => s.arrive (parts n) 0 (some fun _ => 0x55)) emptyState

theorem parse_part : ∀ n, parse (partPacket n) = some (parts n) ∧ (parts n).key = ⟨0, 0, 0, 0⟩ := by
  decide +kernel

theorem next_part (s : State) (n : Fin 3) :
    s.next (partArrives n) = s.arrive (parts n) 0 (some fun _ => 0x55) := by
  show (parse (partPacket n)).elim s _ = _
  rw [(parse_part n).1]
  rfl

/-- A packet is consistent with the slot that its key has. -/
theorem consistent_part {n : Fin 3} (hfind : slotFind s.slots ⟨0, 0, 0, 0⟩ = some 0)
    (hin : Inside (s.slots 0) (parts n)) : Consistent s (partArrives n) := by
  intro f i hf hi
  cases hf.symm.trans (parse_part n).1
  rw [(parse_part n).2, hfind] at hi
  cases hi
  exact hin

theorem reachable_part {ok : State → Label → Prop} {ns : List (Fin 3)} {n : Fin 3}
    (h : (fragSystem.restrict ok).Reachable (arrived ns)) (hl : ok (arrived ns) (partArrives n)) :
    (fragSystem.restrict ok).Reachable (arrived (ns ++ [n])) :=
  .step _ h ⟨hl, by simp [arrived, fragSystem, next_part]⟩

/-- The second fragment arrives, then the last, and the first. -/
theorem three_fragments_supplied :
    (fragSystem.restrict Consistent).Reachable (arrived [1, 2, 0]) ∧ NoLeak (arrived [1, 2, 0]) ∧
      (arrived [1, 2, 0]).log.map (fun e => (e.2.1.map Fragment.off, e.2.2)) =
        [([0, 16, 8], message)] := by
  have h0 : (fragSystem.restrict Consistent).Reachable (arrived []) :=
    .init ⟨fun _ => rfl, fun _ => rfl, rfl⟩
  have h1 : (fragSystem.restrict Consistent).Reachable (arrived [1]) := by
    refine reachable_part h0 ?_
    intro f i _ hfind
    cases (slotFind_some hfind).1
  have h2 : (fragSystem.restrict Consistent).Reachable (arrived [1, 2]) := by
    refine reachable_part h1 (consistent_part (by decide +kernel) ?_)
    intro _ u hu
    have hbmap : ((arrived [1]).slots 0).bmap = Bitmap.set (fun _ => 0) 1 := rfl
    have hzero : Bitmap.test (fun _ => 0) u = false := Nat.zero_testBit _
    rw [hbmap, Bitmap.test_set, hzero] at hu
    have hu : u = 1 := by simpa using hu
    rw [hu]
    decide
  have h3 : (fragSystem.restrict Consistent).Reachable (arrived [1, 2, 0]) := by
    refine reachable_part h2 (consistent_part (by decide +kernel) ?_)
    intro _
    decide +kernel
  exact ⟨h3, delivered_bytes_supplied h3, by decide +kernel⟩

/-- Eight bytes at 800, and an empty last fragment that ends at 8: one unit is needed, one unit is
    there, and the first eight bytes of the memory are delivered. -/
def attacked : State :=
  (emptyState.next (.packet (packet 0x20 100 [1, 2, 3, 4, 5, 6, 7, 8]) 0 (some fun _ => 0x55))).next
    (.packet (packet 0 1 []) 0 none)

theorem unit_behind_end_leaks : fragSystem.Reachable attacked ∧ ¬ NoLeak attacked := by
  refine ⟨.step _ (.step _ (.init ⟨fun _ => rfl, fun _ => rfl, rfl⟩) rfl) rfl, fun h => ?_⟩
  have hlog : attacked.log.map (fun e => (e.2.1.map Fragment.off, e.2.2)) =
      [([8, 800], replicate 8 0x55)] := by
    decide +kernel
  obtain ⟨⟨key, received, payload⟩, he, hfields⟩ := map_eq_singleton_iff.mp hlog
  simp only [Prod.mk.injEq] at hfields
  obtain ⟨g, hg, hoff, -, -⟩ := (h key received payload (by simp [he])).2 0 0x55
    (by simp [hfields.2])
  have hmem : g.off ∈ [8, 800] := hfields.1 ▸ List.mem_map_of_mem hg
  simp only [List.mem_cons, not_mem_nil, or_false] at hmem
  omega

end Cervus.IpFrag
