import Cervus.Memory.PmmRuns
import Cervus.Memory.SlabInvariant

/-! # Runs of the slab allocator

    What holds in every state of every interleaving of `kmalloc` and `kfree` on
    several CPUs, as long as no live object holds the magic number of large
    allocations. Between the sections of a call a CPU holds something that no other
    CPU may touch: a new slab that is on no list yet, an empty slab that is on its
    list no longer, or an object that it is about to free (`Claim`). `Busy` says that
    claims are exclusive; with `Books` it is the invariant of the system.

    The main result is `slab_heap_sound`. -/

namespace Cervus.Slab

open Cervus.Pmm Cervus.Linked List Multiset

/-! ## Section 1: New slabs -/

variable {st st' : SlabState} {slabs : List (Nat × Fin 10)} {live : List Obj} {V : View}
  {c : Fin 10}
  {s i p size : Nat} {pmm : PmmBuddyState} {sys : SlabSys (Fin 2)} {a : Obj}

/-- The memory after `_slab_new`. -/
def freshSlab (m : Mem) (s : Nat) (c : Fin 10) : Mem :=
  initSlab (clear m s (slabLen c)) s (gSizeClasses c) (capacity c)

theorem freshSlab_rep (m : Mem) (ha : pageSize ∣ s) (hhi : s + slabLen c ≤ 2 ^ 64) :
    SlabRep (freshSlab m s c) s c (List.range (capacity c)) ∧
      ∀ a, ¬ InSlab (s, c) a → freshSlab m s c a = m a := by
  obtain ⟨hslab, hframe⟩ := initSlab_rep c ha hhi
    (fun a hin => if_pos hin : ∀ a, InSlab (s, c) a → clear m s (slabLen c) a = 0)
  exact ⟨hslab, fun a hout => (hframe a hout).trans (if_neg hout)⟩

/-- `_slab_new` returns `NULL` and does nothing, or a slab on pages that were free; which
    one does not depend on memory. -/
theorem slabNew_cases (hwf : Wf st.pmm) (hcall : slabNew st c = some (s, st')) :
    (s = 0 ∧ ∀ m, slabNew { st with mem := m } c = some (0, { st with mem := m })) ∨
    (s ≠ 0 ∧ ∃ pmm, Held pmm (s, c) ∧ Taken st.pmm (slabBlock st.pmm (s, c)) pmm ∧
      ∀ m, slabNew { st with mem := m } c = some (s, { st with pmm, mem := freshSlab m s c })) := by
  have hcap : slabCapacity (gSizeClasses c) ≠ 0 := (classOk c).cap_pos.ne'
  unfold slabNew at hcall ⊢
  simp only [if_neg hcap] at hcall ⊢
  cases halloc : pmmAllocZero st.pmm (slabPages (gSizeClasses c)) with
  | none =>
    rw [halloc] at hcall
    cases hcall
  | some r =>
    obtain ⟨p, pmm⟩ := r
    rw [halloc] at hcall
    obtain hnull | ⟨phys, order, hpages, horder, hmin, htaken⟩ :=
      (pmmAllocZero_call hwf halloc).result hwf
    · simp only [if_true, Option.some.injEq, Prod.mk.injEq] at hcall ⊢
      exact .inl ⟨hcall.1.symm, fun _ => trivial⟩
    have hmin' : 0 < freeMinPhys := by decide
    have hne : phys + st.pmm.hhdmOffset ≠ 0 := by omega
    simp only [if_neg hne, Option.some.injEq, Prod.mk.injEq] at hcall ⊢
    obtain rfl := hcall.1
    obtain rfl : order = slabPages (gSizeClasses c) - 1 := by
      rw [(slabPages_order c).1] at horder
      simpa using horder.symm
    -- the new slab sits on the block that was taken
    have hblock : slabBlock st.pmm (phys + st.pmm.hhdmOffset, c) =
        ⟨phys, slabPages (gSizeClasses c) - 1⟩ := by
      unfold slabBlock
      rw [Nat.add_sub_cancel]
    rw [← hblock] at htaken
    have hnodup := hwf.nodup
    rw [htaken.frames, nodup_add] at hnodup
    refine .inr ⟨hne, pmm, ⟨?_, ?_, ?_, ?_⟩, htaken, fun _ => ⟨rfl, rfl⟩⟩
    · rw [htaken.region.hhdmOffset]
      omega
    · rw [slabBlock_region htaken.region]
      exact htaken.aligned
    · rw [slabBlock_region htaken.region, htaken.region.memEnd]
      exact htaken.phys_range hwf
    · rw [slabBlock_region htaken.region]
      exact fun f hf hf' => Multiset.disjoint_left.mp hnodup.2.2 hf hf'

/-- **`_slab_new`** returns `NULL` and does nothing, or a slab of free slots on pages
    of its own. -/
theorem slabNew_spec (h : Books st slabs live V)
    (hcall : slabNew st c = some (s, st')) : (s = 0 ∧ st' = st) ∨
    (s ≠ 0 ∧ (∀ d, (s, d) ∉ slabs) ∧
      Books st' ((s, c) :: slabs) live (V.setFree s (List.range (capacity c)))) := by
  rcases slabNew_cases h.wf hcall with ⟨rfl, hall⟩ | ⟨hne, pmm, hheld, htaken, hall⟩
  · cases hcall.symm.trans (hall st.mem)
    exact .inl ⟨rfl, rfl⟩
  cases hcall.symm.trans (hall st.mem)
  have hhdm : pageSize ∣ pmm.hhdmOffset := by
    rw [htaken.region.hhdmOffset]
    exact h.hhdm
  obtain ⟨ha, _, hhigh⟩ := hheld.bounds htaken.wf hhdm
  obtain ⟨hslab, hframe⟩ := freshSlab_rep st.mem ha hhigh
  have hfrom : ∀ f ∈ (slabBlock pmm (s, c)).frames, f ∈ freeFrames st.pmm := by
    intro f hf
    rw [slabBlock_region htaken.region] at hf
    rw [htaken.frames]
    exact mem_add.mpr (.inl hf)
  refine .inr ⟨hne, ?_, ?_⟩
  · intro d hd
    -- the first page of another slab at this address would have been free
    have hin := hheld.mem_frames (inSlab_base s c)
    have hin' := (h.held _ hd).mem_frames (inSlab_base s d)
    refine (h.held _ hd).taken _ hin' ?_
    rw [htaken.region.hhdmOffset] at hin
    exact hfrom _ hin
  refine h.add htaken.wf htaken.region rfl hheld hfrom ?_ hslab hframe
  intro f hf
  rw [htaken.frames]
  exact mem_add.mpr (.inr hf)

/-! ## Section 2: Freeing -/

/-- **`_is_large_alloc`** is false for every slot: the word it reads is the free list
    pointer, the counts, or in the slot before. -/
theorem SlabRep.not_large {m : Mem} {fr : List Nat} (h : SlabRep m s c fr) (h8 : 8 ∣ s)
    (hhi : s + slabLen c ≤ 2 ^ 64) (hi : i < capacity c) :
    isLargeAlloc m (slotAddr s c i) = false := by
  have hb := slotAddr_bounds (s := s) hi
  have hsize := (classOk c).size_ge
  have hdvd := slotAddr_dvd c i h8
  have hfit := (classOk c).slots_fit
  have hhdr : slabHdr = 32 := rfl
  have hcap := (classOk c).cap_lt
  unfold isLargeAlloc
  rw [sub64_of_le (by omega) (by omega), beq_eq_false_iff_ne]
  by_cases hfirst : slotAddr s c i - 16 = s + 16
  · rw [hfirst]
    exact h.freelist_ne_magic h8
  by_cases hsecond : slotAddr s c i - 16 = s + 24
  · rw [hsecond, h.hdr]
    exact hdrWord_ne_magic (by omega)
  · exact h.clean _ (by omega) (by omega) (by omega)

theorem Books.not_large (h : Books st slabs live V) (ha : a ∈ live) :
    isLargeAlloc st.mem a.ptr = false := by
  obtain ⟨s, c, i, hs, hi, _, hptr, _⟩ := h.owner a ha
  rw [hptr]
  exact (h.rep.slab s c hs).not_large (h.geom.dvd8 hs) (h.geom.high s c hs) hi

/-- **The critical section of `kfree`** on a live object. -/
theorem releaseObject_spec (h : Books st slabs live V) (hs : (s, c) ∈ slabs) (hi : i < capacity c)
    (hnot : i ∉ V.free s) : ∃ st', releaseObject st (slotAddr s c i) = (st',
        if (V.free s).length + 1 = capacity c then some (s, slabPages (gSizeClasses c))
        else none) ∧
      Books st' slabs (live.filter fun a => a.ptr ≠ slotAddr s c i) (V.put c s i) := by
  obtain ⟨st', hcall, hpmm, hrep⟩ :=
    releaseObject_rep h.rep h.geom hs hi hnot (h.located hs hi hnot)
  exact ⟨st', hcall, h.put hs hi hnot hpmm hrep⟩

/-- **Giving a slab back** always succeeds. -/
theorem giveBack_spec (h : Books st slabs live V) (hs : (s, c) ∈ slabs)
    (hempty : (V.free s).length = capacity c) :
    ∃ pmm, pmmFree st.pmm s (slabPages (gSizeClasses c)) = some pmm ∧ SameRegion st.pmm pmm ∧
      (∀ f ∈ freeFrames pmm, f ∈ (slabBlock st.pmm (s, c)).frames ∨ f ∈ freeFrames st.pmm) ∧
      Books { st with pmm } (slabs.filter fun x => x.1 ≠ s) live V := by
  have hheld := h.held _ hs
  have hpages : slabPages (gSizeClasses c) ≠ 0 := by
    rcases (classOk c).pages with hp | hp <;> omega
  have hdisj : Disjoint (slabBlock st.pmm (s, c)).frames (freeFrames st.pmm) :=
    Multiset.disjoint_left.mpr fun hf hf' => hheld.taken _ hf hf'
  obtain ⟨pmm, hcall, hwf, hr, hframes⟩ := pmmFree_spec h.wf hpages (slabPages_order c).1
    hheld.aligned hheld.range hdisj
  have hptr : s - st.pmm.hhdmOffset + st.pmm.hhdmOffset = s := Nat.sub_add_cancel hheld.above
  rw [hptr] at hcall
  have hfreed : ∀ f ∈ freeFrames pmm,
      f ∈ (slabBlock st.pmm (s, c)).frames ∨ f ∈ freeFrames st.pmm := by
    intro f hf
    rw [hframes] at hf
    exact mem_add.mp hf
  exact ⟨pmm, hcall, hr, hfreed, h.drop hs hempty hwf hr hfreed⟩

/-! ## Section 3: What CPUs hold between sections -/

/-- A slab that is on no list, or an object that is being freed. -/
inductive Claim where
  | slab (s : Nat)
  | object (p : Nat)

def Pc.claim : Pc → Option Claim
  | .idle => none
  | .grow _ _ => none
  | .install _ _ s => some (.slab s)
  | .release p => some (.object p)
  | .giveBack s _ => some (.slab s)
  | .large p => some (.object p)

/-- What a CPU relies on between two sections. -/
def PcOk (slabs : List (Nat × Fin 10)) (live : List Obj) (V : View) : Pc → Prop
  | .idle => True
  | .grow c size => size ≤ gSizeClasses c
  | .install c size s => size ≤ gSizeClasses c ∧ (s, c) ∈ slabs ∧
      V.free s = List.range (capacity c)
  | .release p => p ∈ live.map Obj.ptr
  | .giveBack s pages => ∃ c, (s, c) ∈ slabs ∧ (V.free s).length = capacity c ∧
      pages = slabPages (gSizeClasses c)
  | .large _ => False

section Runs

variable {Cpu : Type} {slabs slabs' : List (Nat × Fin 10)} {live live' : List Obj} {V V' : View}

variable {p : Pc} {s size : Nat} {cpu : Cpu} {c : Fin 10} {st : SlabState} {sys : SlabSys Cpu}
  {a : Obj} {pc : Cpu → Pc}

/-- Claimed slabs have no live objects. -/
theorem PcOk.claimed_slab (h : PcOk slabs live V p) (hp : p.claim = some (.slab s)) :
    ∃ c, (s, c) ∈ slabs ∧ (V.free s).length = capacity c := by
  cases p with
  | install c size t =>
    simp only [Pc.claim, Option.some.injEq, Claim.slab.injEq] at hp
    subst hp
    exact ⟨c, h.2.1, by rw [h.2.2, length_range]⟩
  | giveBack t pages =>
    simp only [Pc.claim, Option.some.injEq, Claim.slab.injEq] at hp
    subst hp
    obtain ⟨c, hs, hlen, _⟩ := h
    exact ⟨c, hs, hlen⟩
  | idle => cases hp
  | grow c size => cases hp
  | release q => cases hp
  | large q => cases hp

/-- What a CPU relies on is kept by steps that keep what it claims. -/
theorem PcOk.keep (h : PcOk slabs live V p)
    (hslab : ∀ s, p.claim = some (.slab s) →
      (∀ c, (s, c) ∈ slabs → (s, c) ∈ slabs') ∧ V'.free s = V.free s)
    (hobj : ∀ q, p.claim = some (.object q) → q ∈ live.map Obj.ptr → q ∈ live'.map Obj.ptr) :
    PcOk slabs' live' V' p := by
  cases p with
  | idle => trivial
  | grow c size => exact h
  | install c size s =>
    obtain ⟨hmem, hfree⟩ := hslab s rfl
    exact ⟨h.1, hmem c h.2.1, hfree.trans h.2.2⟩
  | release q => exact hobj q rfl h
  | giveBack s pages =>
    obtain ⟨hmem, hfree⟩ := hslab s rfl
    obtain ⟨c, hs, hlen, hpages⟩ := h
    exact ⟨c, hmem c hs, by rw [hfree]; exact hlen, hpages⟩
  | large q => exact h

/-- Every CPU may rely on what it needs, and no two claim the same. -/
structure Busy (pc : Cpu → Pc) (slabs : List (Nat × Fin 10)) (live : List Obj) (V : View) :
    Prop where
  ok    : ∀ k, PcOk slabs live V (pc k)
  alone : ∀ k k' x, (pc k).claim = some x → (pc k').claim = some x → k = k'

theorem Busy.at (h : Busy pc slabs live V) (hpc : pc cpu = p) :
    PcOk slabs live V p :=
  hpc ▸ h.ok cpu

/-- The system's invariant. -/
def Inv (sys : SlabSys Cpu) : Prop :=
  ∃ V, Books sys.st sys.slabs sys.live V ∧ Busy sys.pc sys.slabs sys.live V

variable [DecidableEq Cpu]

/-- One CPU moves on; the others keep what they claim. -/
theorem Busy.setPc (h : Busy pc slabs live V) (hok : PcOk slabs' live' V' p)
    (hclaim : ∀ x, p.claim = some x → ∀ k, k ≠ cpu → (pc k).claim ≠ some x)
    (hslab : ∀ k s, k ≠ cpu → (pc k).claim = some (.slab s) →
      (∀ c, (s, c) ∈ slabs → (s, c) ∈ slabs') ∧ V'.free s = V.free s)
    (hobj : ∀ k q, k ≠ cpu → (pc k).claim = some (.object q) → q ∈ live.map Obj.ptr →
      q ∈ live'.map Obj.ptr) :
    Busy (fun k => if k = cpu then p else pc k) slabs' live' V' := by
  constructor
  · intro k
    by_cases hk : k = cpu
    · rw [if_pos hk]
      exact hok
    · rw [if_neg hk]
      exact (h.ok k).keep (fun s => hslab k s hk) (fun q => hobj k q hk)
  intro k k' x hx hx'
  by_cases hk : k = cpu <;> by_cases hk' : k' = cpu
  · rw [hk, hk']
  · rw [if_pos hk] at hx
    rw [if_neg hk'] at hx'
    exact absurd hx' (hclaim x hx k' hk')
  · rw [if_neg hk] at hx
    rw [if_pos hk'] at hx'
    exact absurd hx (hclaim x hx' k hk)
  · rw [if_neg hk] at hx
    rw [if_neg hk'] at hx'
    exact h.alone k k' x hx hx'

/-! ## Section 4: Steps -/

theorem cacheFor_le (h : cacheFor size = some c) : size ≤ gSizeClasses c := by
  have := List.find?_some h
  simpa using this

/-- The first slab of the partial list has a free slot. -/
theorem Books.first_partial (h : Books st slabs live V) (hne : (st.caches c).partialHead ≠ 0) :
    ∃ s P i rest, V.lists c false = s :: P ∧ V.free s = i :: rest := by
  obtain ⟨s, P, hP⟩ : ∃ s P, V.lists c false = s :: P := by
    cases hl : V.lists c false with
    | nil =>
      have hd := h.rep.list c false
      rw [hl] at hd
      exact absurd hd hne
    | cons s P => exact ⟨s, P, rfl⟩
  have hmem : s ∈ V.lists c false := by
    rw [hP]
    exact .head _
  have hlisted := (h.listed s c false (h.rep.member c false s hmem)).mp hmem
  obtain ⟨i, rest, hfree⟩ := exists_cons_of_length_pos hlisted.1
  exact ⟨s, P, i, rest, hP, hfree⟩

/-- A slab that a CPU is about to install is on no list and has a free slot. -/
theorem Books.fresh_slab (h : Books st slabs live V) (hs : (s, c) ∈ slabs)
    (hfree : V.free s = List.range (capacity c)) :
    (∀ k, s ∉ V.lists c k) ∧ ∃ i rest, V.free s = i :: rest := by
  have hcap := (classOk c).cap_pos
  constructor
  · intro k hk
    have hl := (h.listed s c k hs).mp hk
    rw [hfree, length_range] at hl
    cases k <;> simp only [Listed] at hl <;> omega
  · apply exists_cons_of_length_pos
    rw [hfree, length_range]
    exact hcap

section

variable (hinv : Inv sys)
include hinv

/-- The first section of `kmalloc`. -/
theorem inv_kmalloc : Inv (match kmallocEnter sys.st size with
      | .null => sys
      | .grow c => sys.setPc cpu (.grow c size)
      | .object obj st => { sys with st, live := ⟨obj, size⟩ :: sys.live }) := by
  obtain ⟨V, h, hb⟩ := hinv
  unfold kmallocEnter
  cases hc : cacheFor size with
  | none => exact ⟨V, h, hb⟩
  | some c =>
    simp only
    by_cases hnull : (sys.st.caches c).partialHead = 0
    · rw [if_pos hnull]
      refine ⟨V, h, hb.setPc (cacheFor_le hc) ?_ ?_ ?_⟩
      · intro x hx
        cases hx
      · exact fun k s _ _ => ⟨fun _ hs => hs, rfl⟩
      · exact fun k q _ _ hq => hq
    rw [if_neg hnull]
    obtain ⟨s, P, i, rest, hP, hfree⟩ := h.first_partial hnull
    have hmem : s ∈ V.lists c false := by
      rw [hP]
      exact .head _
    have hs := h.rep.member c false s hmem
    have hlisted := (h.listed s c false hs).mp hmem
    obtain ⟨st', hcall, hpmm, hrep⟩ := takeObject_rep h.rep h.geom hP hfree
    rw [hcall]
    have hbooks : Books st' sys.slabs (⟨slotAddr s c i, size⟩ :: sys.live) (V.take c s rest) :=
      h.take hs hfree (cacheFor_le hc) hpmm hrep (V.take_free c s rest) fun t d k =>
        View.mem_take hmem (h.rep.disjoint c s hmem) (h.rep.nodup c false) d k t
    refine ⟨_, hbooks, fun k => (hb.ok k).keep ?_ ?_, hb.alone⟩
    · intro t ht
      obtain ⟨d, htd, hlen⟩ := (hb.ok k).claimed_slab ht
      refine ⟨fun _ hs' => hs', ?_⟩
      rw [View.take_free, Function.update_of_ne]
      rintro rfl
      obtain rfl := h.geom.base_inj htd hs
      have := hlisted.2
      omega
    · exact fun q _ hq => List.mem_cons_of_mem _ hq

/-- `_slab_new`, with the lock free. -/
theorem inv_grow (hpc : sys.pc cpu = .grow c size) (hcall : slabNew sys.st c = some (s, st)) :
    Inv (if s = 0 then { sys with st }.setPc cpu .idle
      else { sys with st, slabs := (s, c) :: sys.slabs }.setPc cpu (.install c size s)) := by
  obtain ⟨V, h, hb⟩ := hinv
  have hsize : size ≤ gSizeClasses c := hb.at hpc
  rcases slabNew_spec h hcall with ⟨hs, rfl⟩ | ⟨hs, hnew, hbooks⟩
  · rw [if_pos hs]
    refine ⟨V, h, hb.setPc trivial ?_ ?_ ?_⟩
    · intro x hx
      cases hx
    · exact fun k s _ _ => ⟨fun _ hs => hs, rfl⟩
    · exact fun k q _ _ hq => hq
  rw [if_neg hs]
  refine ⟨_, hbooks, hb.setPc ⟨hsize, List.mem_cons_self, by simp [View.setFree]⟩ ?_ ?_ ?_⟩
  · -- nobody can have a claim on a slab that did not exist
    rintro x hx k _ hk
    cases hx
    obtain ⟨d, hd, _⟩ := (hb.ok k).claimed_slab hk
    exact hnew d hd
  · intro k t _ ht
    obtain ⟨d, htd, _⟩ := (hb.ok k).claimed_slab ht
    refine ⟨fun _ ht' => List.mem_cons_of_mem _ ht', ?_⟩
    have hts : t ≠ s := by
      rintro rfl
      exact hnew d htd
    simp [View.setFree, hts]
  · exact fun k q _ _ hq => hq

/-- The section of `kmalloc` that installs a new slab. -/
theorem inv_install (hpc : sys.pc cpu = .install c size s) :
    Inv ({ sys with st := (installSlab sys.st c s).2,
                    live := ⟨(installSlab sys.st c s).1, size⟩ :: sys.live }.setPc cpu .idle) := by
  obtain ⟨V, h, hb⟩ := hinv
  obtain ⟨hsize, hs, hfree⟩ := hb.at hpc
  obtain ⟨hnot, i, rest, hcons⟩ := h.fresh_slab hs hfree
  obtain ⟨st', hcall, hpmm, hrep⟩ := installSlab_rep h.rep h.geom hs hnot hcons
  rw [hcall]
  have hmem : s ∈ (V.setList c false (s :: V.lists c false)).lists c false := by
    rw [View.setList_self]
    exact .head _
  have hnot' : s ∉ (V.setList c false (s :: V.lists c false)).lists c true := by
    rw [← Bool.not_false, View.setList_other]
    exact hnot _
  have hnodup : ((V.setList c false (s :: V.lists c false)).lists c false).Nodup := by
    rw [View.setList_self]
    exact List.nodup_cons.mpr ⟨hnot false, h.rep.nodup c false⟩
  have hbooks : Books st' sys.slabs (⟨slotAddr s c i, size⟩ :: sys.live)
      ((V.setList c false (s :: V.lists c false)).take c s rest) := by
    refine h.take hs hcons hsize hpmm hrep (View.take_free _ c s rest) fun t d k => ?_
    rw [View.mem_take hmem hnot' hnodup]
    by_cases hdt : d = c ∧ t = s
    · rw [if_pos hdt, if_pos hdt]
    by_cases hdk : d = c ∧ k = false
    · have hts : t ≠ s := fun heq => hdt ⟨hdk.1, heq⟩
      simp [View.setList, hdk, hts]
    · simp [View.setList, hdk]
  refine ⟨_, hbooks, hb.setPc trivial ?_ ?_ ?_⟩
  · intro x hx
    cases hx
  · intro k t hk ht
    refine ⟨fun _ ht' => ht', ?_⟩
    rw [View.take_free, Function.update_of_ne]
    · rfl
    · rintro rfl
      exact hk (hb.alone k cpu _ ht (by rw [hpc]; rfl))
  · exact fun k q _ _ hq => List.mem_cons_of_mem _ hq

/-- The test of `kfree` for large allocations. -/
theorem inv_kfree (ha : a ∈ sys.live) (hnone : ∀ k, sys.pc k ≠ .release a.ptr) :
    Inv (sys.setPc cpu
      (if isLargeAlloc sys.st.mem a.ptr then .large a.ptr else .release a.ptr)) := by
  obtain ⟨V, h, hb⟩ := hinv
  rw [h.not_large ha, if_neg Bool.false_ne_true]
  refine ⟨V, h, hb.setPc (List.mem_map_of_mem ha) ?_ ?_ ?_⟩
  · rintro x hx k _ hk
    cases hx
    have hok := hb.ok k
    generalize hp : sys.pc k = p at hk hok
    cases p with
    | release q =>
      simp only [Pc.claim, Option.some.injEq, Claim.object.injEq] at hk
      exact hnone k (by rw [hp, hk])
    | large q => exact hok
    | idle => cases hk
    | grow d size => cases hk
    | install d size t => cases hk
    | giveBack t pages => cases hk
  · exact fun k s _ _ => ⟨fun _ hs => hs, rfl⟩
  · exact fun k q _ _ hq => hq

/-- The critical section of `kfree`. -/
theorem inv_release {ptr : Nat} (hpc : sys.pc cpu = .release ptr) :
    Inv ({ sys with st := (releaseObject sys.st ptr).1,
                    live := sys.live.filter fun a => a.ptr ≠ ptr }.setPc cpu
      (match (releaseObject sys.st ptr).2 with
        | none => .idle
        | some (s, pages) => .giveBack s pages)) := by
  obtain ⟨V, h, hb⟩ := hinv
  obtain ⟨a, ha, rfl⟩ := List.mem_map.mp (hb.at hpc)
  obtain ⟨s, c, i, hs, hi, hnot, hptr, _⟩ := h.owner a ha
  rw [hptr] at hpc ⊢
  obtain ⟨st', hcall, hbooks⟩ := releaseObject_spec h hs hi hnot
  rw [hcall]
  -- no CPU claims the slab, which had a live object
  have hunclaimed : ∀ k, (sys.pc k).claim ≠ some (.slab s) := by
    intro k hk
    obtain ⟨d, hd, hlen⟩ := (hb.ok k).claimed_slab hk
    obtain rfl := h.geom.base_inj hd hs
    exact hnot ((h.rep.slab s d hs).all_free hlen hi)
  have hslab : ∀ k t, k ≠ cpu → (sys.pc k).claim = some (.slab t) →
      (∀ d, (t, d) ∈ sys.slabs → (t, d) ∈ sys.slabs) ∧ (V.put c s i).free t = V.free t := by
    intro k t _ ht
    refine ⟨fun _ ht' => ht', ?_⟩
    rw [View.put_free, Function.update_of_ne]
    rintro rfl
    exact hunclaimed k ht
  have hobj : ∀ k q, k ≠ cpu → (sys.pc k).claim = some (.object q) → q ∈ sys.live.map Obj.ptr →
      q ∈ (sys.live.filter fun b => b.ptr ≠ slotAddr s c i).map Obj.ptr := by
    intro k q hk hq hlive
    obtain ⟨b, hb', rfl⟩ := List.mem_map.mp hlive
    refine List.mem_map.mpr ⟨b, List.mem_filter.mpr ⟨hb', ?_⟩, rfl⟩
    rw [decide_eq_true_eq]
    intro heq
    rw [heq] at hq
    exact hk (hb.alone k cpu _ hq (by rw [hpc]; rfl))
  refine ⟨_, hbooks, ?_⟩
  by_cases hlast : (V.free s).length + 1 = capacity c
  · simp only [if_pos hlast]
    refine hb.setPc ⟨c, hs, ?_, rfl⟩ ?_ hslab hobj
    · rw [View.put_free, Function.update_self, length_cons, hlast]
    · rintro x hx k _ hk
      cases hx
      exact hunclaimed k hk
  simp only [if_neg hlast]
  refine hb.setPc trivial ?_ hslab hobj
  intro x hx
  cases hx

/-- An empty slab goes back to the page allocator. -/
theorem inv_giveBack {pages : Nat} {pmm : PmmBuddyState} (hpc : sys.pc cpu = .giveBack s pages)
    (hcall : pmmFree sys.st.pmm s pages = some pmm) :
    Inv ({ sys with st := { sys.st with pmm },
                    slabs := sys.slabs.filter fun x => x.1 ≠ s }.setPc cpu .idle) := by
  obtain ⟨V, h, hb⟩ := hinv
  obtain ⟨c, hs, hlen, rfl⟩ := hb.at hpc
  obtain ⟨pmm', hcall', _, _, hbooks⟩ := giveBack_spec h hs hlen
  rw [hcall, Option.some.injEq] at hcall'
  subst hcall'
  refine ⟨V, hbooks, hb.setPc trivial ?_ ?_ ?_⟩
  · intro x hx
    cases hx
  · intro k t hk ht
    refine ⟨fun d htd => List.mem_filter.mpr ⟨htd, ?_⟩, rfl⟩
    rw [decide_eq_true_eq]
    rintro rfl
    exact hk (hb.alone k cpu _ ht (by rw [hpc]; rfl))
  · exact fun k q _ _ hq => hq

/-- **Every step keeps the invariant.** -/
theorem inv_step {sys' : SlabSys Cpu} {l : SlabLabel Cpu} (hstep : SlabStep sys l sys') :
    Inv sys' := by
  match l with
  | .kmalloc cpu size =>
    obtain ⟨_, _, _, rfl⟩ := hstep
    exact inv_kmalloc hinv
  | .grow cpu =>
    obtain ⟨c, size, s, st, hpc, hcall, rfl⟩ := hstep
    exact inv_grow hinv hpc hcall
  | .install cpu =>
    obtain ⟨c, size, s, hpc, rfl⟩ := hstep
    exact inv_install hinv hpc
  | .kfree cpu a =>
    obtain ⟨_, ha, hnone, rfl⟩ := hstep
    exact inv_kfree hinv ha hnone
  | .release cpu =>
    obtain ⟨ptr, hpc, rfl⟩ := hstep
    exact inv_release hinv hpc
  | .giveBack cpu =>
    obtain ⟨s, pages, pmm, hpc, hcall, rfl⟩ := hstep
    exact inv_giveBack hinv hpc hcall
  | .store a addr v =>
    obtain ⟨ha, hlo, hhi, _, hv, rfl⟩ := hstep
    obtain ⟨V, h, hb⟩ := hinv
    exact ⟨V, h.store ha hlo hhi hv, hb⟩
  | .other mem pmm =>
    obtain ⟨hwf, hr, hkeep, rfl⟩ := hstep
    obtain ⟨V, h, hb⟩ := hinv
    exact ⟨V, h.other hwf hr hkeep, hb⟩

end

/-- At the start there are no slabs and no objects. -/
theorem inv_init (h : (slabSystem Cpu).init sys) : Inv sys := by
  obtain ⟨hwf, hhdm, hcaches, hpc, hslabs, hlive⟩ := h
  refine ⟨⟨fun _ => [], fun _ _ => []⟩, ?_, ?_⟩
  · rw [hslabs, hlive]
    refine ⟨hwf, hhdm, by simp, by simp, ?_, by simp, by simp, by simp, nodup_nil⟩
    refine ⟨by simp, ?_, by simp, by simp, by simp⟩
    intro c k
    rw [hcaches]
    cases k <;> rfl
  constructor
  · intro k
    rw [hpc]
    trivial
  · intro k k' x hx
    rw [hpc] at hx
    cases hx

theorem inv_reachable (h : (slabSystem Cpu).Reachable sys) : Inv sys := by
  refine System.Reachable.induct ?_ ?_ h
  · exact fun _ hi => inv_init hi
  · exact fun _ _ _ _ hinv hstep => inv_step hinv hstep

/-! ## Section 5: The heap -/

instance (x : Nat × Fin 10) (a : Nat) : Decidable (InSlab x a) :=
  inferInstanceAs (Decidable (_ ∧ _))

/-- The number of live objects in a slab. -/
def liveIn (live : List Obj) (x : Nat × Fin 10) : Nat := live.countP fun a => InSlab x a.ptr

/-- What callers and the allocator itself may rely on, in terms of memory:

    * objects are as large as their slab's header says, which is at least as large as
      was asked for, lie in their slab after the header and do not overlap;
    * `kfree` of an object takes it for a small one and finds its slab and cache;
    * a free list runs through every slot that is not live, once;
    * the count of used slots is the number of live objects;
    * the two lists of each cache have the slabs that they should have. -/
structure HeapSound (sys : SlabSys Cpu) : Prop where
  disjoint : sys.live.Pairwise fun a b =>
    a.ptr + objSizeOf sys.st.mem (slabOf a.ptr) ≤ b.ptr ∨
      b.ptr + objSizeOf sys.st.mem (slabOf b.ptr) ≤ a.ptr
  inside : ∀ a ∈ sys.live, a.size ≤ objSizeOf sys.st.mem (slabOf a.ptr) ∧
    ∃ c, (slabOf a.ptr, c) ∈ sys.slabs ∧ slabOf a.ptr + slabHdr ≤ a.ptr ∧
      a.ptr + objSizeOf sys.st.mem (slabOf a.ptr) ≤ slabOf a.ptr + slabLen c
  found : ∀ a ∈ sys.live, isLargeAlloc sys.st.mem a.ptr = false ∧
    ∃ c, (slabOf a.ptr, c) ∈ sys.slabs ∧ InSlab (slabOf a.ptr, c) a.ptr ∧
      cacheOf (objSizeOf sys.st.mem (slabOf a.ptr)) = some c
  freelist : ∀ s c, (s, c) ∈ sys.slabs → ∃ fr : List Nat,
    Chain sys.st.mem (freelistOf sys.st.mem s) fr ∧ fr.Nodup ∧
      ∀ p, p ∈ fr ↔ (∃ i < totalOf sys.st.mem s, p = slotAddr s c i) ∧
        p ∉ sys.live.map Obj.ptr
  used : ∀ s c, (s, c) ∈ sys.slabs → usedOf sys.st.mem s = liveIn sys.live (s, c)
  lists : ∀ c, ∃ pl fl : List Nat,
    Dlist 8 sys.st.mem 0 (sys.st.caches c).partialHead pl ∧ pl.Nodup ∧
    Dlist 8 sys.st.mem 0 (sys.st.caches c).fullHead fl ∧ fl.Nodup ∧
    (∀ s, s ∈ pl ↔ (s, c) ∈ sys.slabs ∧ 0 < usedOf sys.st.mem s ∧
      usedOf sys.st.mem s < totalOf sys.st.mem s) ∧
    (∀ s, s ∈ fl ↔ (s, c) ∈ sys.slabs ∧ usedOf sys.st.mem s = totalOf sys.st.mem s)

section Books

variable {st : SlabState} {s : Nat} {c : Fin 10}

/-- An address in a slab that a live object has is one of its slots. -/
theorem Books.slot_of_inSlab (h : Books st slabs live V) (hs : (s, c) ∈ slabs)
    (ha : a ∈ live) (hin : InSlab (s, c) a.ptr) :
    ∃ i, i < capacity c ∧ a.ptr = slotAddr s c i := by
  obtain ⟨t, d, i, ht, hi, _, hptr, _⟩ := h.owner a ha
  have hin' : InSlab (t, d) a.ptr := by
    rw [hptr]
    exact inSlab_slot hi
  cases h.apart _ hs _ ht _ hin hin'
  exact ⟨i, hi, hptr⟩

/-- Live objects and free slots together are all slots of a slab. -/
theorem Books.liveIn_eq (h : Books st slabs live V) (hs : (s, c) ∈ slabs) :
    liveIn live (s, c) = capacity c - (V.free s).length := by
  have hslab := h.rep.slab s c hs
  have hperm : (((live.filter fun a => InSlab (s, c) a.ptr).map Obj.ptr) ++
      (V.free s).map (slotAddr s c)).Perm ((List.range (capacity c)).map (slotAddr s c)) := by
    rw [perm_ext_iff_of_nodup]
    · intro p
      rw [mem_append, List.mem_map, List.mem_map, List.mem_map]
      constructor
      · rintro (⟨a, ha, rfl⟩ | ⟨i, hi, rfl⟩)
        · obtain ⟨hmem, hin⟩ := List.mem_filter.mp ha
          obtain ⟨i, hi, hptr⟩ := h.slot_of_inSlab hs hmem (of_decide_eq_true hin)
          exact ⟨i, List.mem_range.mpr hi, hptr.symm⟩
        · exact ⟨i, List.mem_range.mpr (hslab.range i hi), rfl⟩
      rintro ⟨i, hi, rfl⟩
      rw [List.mem_range] at hi
      by_cases hfree : i ∈ V.free s
      · exact .inr ⟨i, hfree, rfl⟩
      obtain ⟨a, ha, hptr⟩ := List.mem_map.mp (h.used s c i hs hi hfree)
      have hin : InSlab (s, c) a.ptr := by
        rw [hptr]
        exact inSlab_slot hi
      exact .inl ⟨a, List.mem_filter.mpr ⟨ha, decide_eq_true hin⟩, hptr⟩
    · rw [nodup_append]
      refine ⟨(filter_sublist.map Obj.ptr).nodup h.uniq,
        hslab.nodup.map fun _ _ heq => slotAddr_inj heq, ?_⟩
      rintro p hp q hq rfl
      obtain ⟨i, hi, rfl⟩ := List.mem_map.mp hq
      exact h.free_not_live hs hi (filter_sublist.map Obj.ptr |>.subset hp)
    · exact List.nodup_range.map fun _ _ heq => slotAddr_inj heq
  have hlen := hperm.length_eq
  rw [length_append, length_map, length_map, length_map,
    length_range] at hlen
  unfold liveIn
  rw [countP_eq_length_filter]
  omega

end Books

/-- Two live objects do not overlap. -/
theorem Books.objects_disjoint (h : Books st slabs live V) {b : Obj} (ha : a ∈ live) (hb : b ∈ live)
    (hne : a.ptr ≠ b.ptr) : a.ptr + objSizeOf st.mem (slabOf a.ptr) ≤ b.ptr ∨
      b.ptr + objSizeOf st.mem (slabOf b.ptr) ≤ a.ptr := by
  obtain ⟨s, c, i, hs, hi, _, hptr, _⟩ := h.owner a ha
  obtain ⟨t, d, j, ht, hj, _, hptr', _⟩ := h.owner b hb
  rw [hptr, hptr', h.geom.slabOf_slot hs hi, h.geom.slabOf_slot ht hj,
    (h.rep.slab s c hs).fields.1, (h.rep.slab t d ht).fields.1]
  rw [hptr, hptr'] at hne
  by_cases hst : (s, c) = (t, d)
  · cases hst
    have hij : i ≠ j := fun heq => hne (by rw [heq])
    rcases Nat.lt_or_gt_of_ne hij with hlt | hgt
    · exact .inl (slotAddr_disjoint hlt)
    · exact .inr (slotAddr_disjoint hgt)
  -- objects of different slabs: an overlap would put an address in both
  by_contra hover
  have hbi := slotAddr_bounds (s := s) hi
  have hbj := slotAddr_bounds (s := t) hj
  have hfit := (classOk c).slots_fit
  have hfit' := (classOk d).slots_fit
  have hin : ∃ x, InSlab (s, c) x ∧ InSlab (t, d) x := by
    rcases Nat.le_total (slotAddr s c i) (slotAddr t d j) with hle | hle
    · refine ⟨slotAddr t d j, ⟨?_, ?_⟩, inSlab_slot hj⟩
      · omega
      · change _ < s + slabLen c
        omega
    refine ⟨slotAddr s c i, inSlab_slot hi, ?_, ?_⟩
    · omega
    · change _ < t + slabLen d
      omega
  obtain ⟨x, hx, hx'⟩ := hin
  exact hst (h.apart _ hs _ ht x hx hx')

/-- **The slab heap is sound** in every state of every interleaving. -/
theorem slab_heap_sound {sys : SlabSys Cpu} (hreach : (slabSystem Cpu).Reachable sys) :
    HeapSound sys := by
  obtain ⟨V, h, _⟩ := inv_reachable hreach
  have hplace : ∀ a ∈ sys.live, ∃ c i, (slabOf a.ptr, c) ∈ sys.slabs ∧ i < capacity c ∧
      a.ptr = slotAddr (slabOf a.ptr) c i ∧ a.size ≤ gSizeClasses c ∧
      objSizeOf sys.st.mem (slabOf a.ptr) = gSizeClasses c := by
    intro a ha
    obtain ⟨s, c, i, hs, hi, _, hptr, hsize⟩ := h.owner a ha
    have hslab : slabOf a.ptr = s := by
      rw [hptr]
      exact h.geom.slabOf_slot hs hi
    rw [hslab]
    exact ⟨c, i, hs, hi, hptr, hsize, (h.rep.slab s c hs).fields.1⟩
  refine ⟨?_, ?_, ?_, ?_, ?_, ?_⟩
  · have huniq : sys.live.Pairwise fun a b => a.ptr ≠ b.ptr := pairwise_map.mp h.uniq
    exact huniq.imp_of_mem fun ha hb hne => h.objects_disjoint ha hb hne
  · intro a ha
    obtain ⟨c, i, hs, hi, hptr, hsize, hobj⟩ := hplace a ha
    have hb := slotAddr_bounds (s := slabOf a.ptr) hi
    have hfit := (classOk c).slots_fit
    rw [← hptr] at hb
    rw [hobj]
    exact ⟨hsize, c, hs, hb.1, by omega⟩
  · intro a ha
    obtain ⟨c, i, hs, hi, hptr, _, hobj⟩ := hplace a ha
    have hin := inSlab_slot (s := slabOf a.ptr) hi
    rw [← hptr] at hin
    rw [hobj]
    exact ⟨h.not_large ha, c, hs, hin, cacheOf_class c⟩
  · intro s c hs
    have hslab := h.rep.slab s c hs
    refine ⟨(V.free s).map (slotAddr s c), hslab.chain,
      hslab.nodup.map fun _ _ heq => slotAddr_inj heq, ?_⟩
    intro p
    rw [hslab.fields.2.1, List.mem_map]
    constructor
    · rintro ⟨i, hi, rfl⟩
      exact ⟨⟨i, hslab.range i hi, rfl⟩, h.free_not_live hs hi⟩
    rintro ⟨⟨i, hi, rfl⟩, hdead⟩
    refine ⟨i, ?_, rfl⟩
    by_contra hfree
    exact hdead (h.used s c i hs hi hfree)
  · intro s c hs
    rw [(h.rep.slab s c hs).fields.2.2, h.liveIn_eq hs]
  intro c
  refine ⟨V.lists c false, V.lists c true, h.rep.list c false, h.rep.nodup c false,
    h.rep.list c true, h.rep.nodup c true, ?_, ?_⟩
  · intro s
    constructor
    · intro hmem
      have hs := h.rep.member c false s hmem
      have hl := (h.listed s c false hs).mp hmem
      obtain ⟨_, htotal, hused⟩ := (h.rep.slab s c hs).fields
      exact ⟨hs, by simp only [Listed] at hl; omega⟩
    rintro ⟨hs, hpos, hlt⟩
    obtain ⟨_, htotal, hused⟩ := (h.rep.slab s c hs).fields
    rw [h.listed s c false hs]
    exact ⟨by omega, by omega⟩
  intro s
  constructor
  · intro hmem
    have hs := h.rep.member c true s hmem
    have hl : (V.free s).length = 0 := (h.listed s c true hs).mp hmem
    obtain ⟨_, htotal, hused⟩ := (h.rep.slab s c hs).fields
    exact ⟨hs, by omega⟩
  rintro ⟨hs, heq⟩
  obtain ⟨_, htotal, hused⟩ := (h.rep.slab s c hs).fields
  have hlen := (h.rep.slab s c hs).length_le
  rw [h.listed s c true hs]
  change (V.free s).length = 0
  omega

end Runs

/-! ### Two CPUs that both make a slab -/

/-- The machine of `touchingMap` after `slab_init`, with two CPUs. -/
def twoCpus : SlabSys (Fin 2) where
  st := ⟨fun _ => 0, touchingState, fun _ => ⟨0, 0, 0, 0⟩⟩
  pc := fun _ => .idle
  slabs := []
  live := []

theorem twoCpus_init : (slabSystem (Fin 2)).init twoCpus := by
  refine ⟨?_, by decide, fun _ => rfl, fun _ => rfl, rfl, rfl⟩
  change Wf touchingState
  rw [← touchingMap_init]
  exact (pmmInit_spec touchingMap touchingMap_disjoint).1

/-- One page can be had as long as one is free. -/
theorem alloc_page (h : Wf pmm) (hpos : 0 < (freeFrames pmm).card) :
    ∃ p pmm', p ≠ 0 ∧ pmmAllocZero pmm 1 = some (p, pmm') ∧ Wf pmm' ∧
      (freeFrames pmm).card = (freeFrames pmm').card + 1 := by
  rcases pmmAllocZero_one h with ⟨_, hnone⟩ | ⟨phys, pmm', hcall, hmin, htaken⟩
  · rw [hnone] at hpos
    exact absurd hpos (by simp)
  have hmin' : 0 < freeMinPhys := by decide
  refine ⟨_, pmm', by omega, hcall, htaken.wf, ?_⟩
  rw [htaken.frames, card_add]
  simp [PmmBlock.frames, Nat.add_comm]

/-- `_slab_new` makes a slab whenever there are pages. -/
theorem slabNew_of_alloc (hcall : pmmAllocZero st.pmm (slabPages (gSizeClasses c)) = some (p, pmm))
    (hp : p ≠ 0) : ∃ mem, slabNew st c = some (p, { st with pmm, mem }) := by
  have hcap : slabCapacity (gSizeClasses c) ≠ 0 := (classOk c).cap_pos.ne'
  unfold slabNew
  simp only [if_neg hcap, hcall, if_neg hp]
  exact ⟨_, rfl⟩

theorem reachable_grow (cpu : Fin 2) (h : (slabSystem (Fin 2)).Reachable sys)
    (hpc : sys.pc cpu = .grow c size)
    (hcall : pmmAllocZero sys.st.pmm (slabPages (gSizeClasses c)) = some (p, pmm)) (hp : p ≠ 0) :
    ∃ mem, (slabSystem (Fin 2)).Reachable ({ sys with
      st := { sys.st with pmm, mem }, slabs := (p, c) :: sys.slabs }.setPc cpu
        (.install c size p)) := by
  obtain ⟨mem, hnew⟩ := slabNew_of_alloc hcall hp
  refine ⟨mem, .step (.grow cpu) h ⟨c, size, p, _, hpc, hnew, ?_⟩⟩
  rw [if_neg hp]

theorem reachable_install (cpu : Fin 2) (h : (slabSystem (Fin 2)).Reachable sys)
    (hpc : sys.pc cpu = .install c size s) : (slabSystem (Fin 2)).Reachable ({ sys with
      st := (installSlab sys.st c s).2,
      live := ⟨(installSlab sys.st c s).1, size⟩ :: sys.live }.setPc cpu .idle) :=
  .step (.install cpu) h ⟨c, size, s, hpc, rfl⟩

/-- Both CPUs find no slab, both make one, and both install theirs: two slabs with an
    object each. -/
theorem slab_heap_sound_two :
    ∃ sys, (slabSystem (Fin 2)).Reachable sys ∧ sys.slabs.length = 2 ∧ sys.live.length = 2 ∧
      HeapSound sys := by
  have h0 : (slabSystem (Fin 2)).Reachable twoCpus := .init twoCpus_init
  have h1 : (slabSystem (Fin 2)).Reachable (twoCpus.setPc 0 (.grow 0 5)) :=
    .step (.kmalloc 0 5) h0 ⟨rfl, by decide, by decide, rfl⟩
  have h2 : (slabSystem (Fin 2)).Reachable ((twoCpus.setPc 0 (.grow 0 5)).setPc 1 (.grow 0 5)) :=
    .step (.kmalloc 1 5) h1 ⟨rfl, by decide, by decide, rfl⟩
  obtain ⟨p, pmm, hp, hcall, q, pmm', hq, hcall'⟩ : ∃ p pmm, p ≠ 0 ∧
      pmmAllocZero touchingState 1 = some (p, pmm) ∧
      ∃ q pmm', q ≠ 0 ∧ pmmAllocZero pmm 1 = some (q, pmm') := by
    have hwf : Wf touchingState := twoCpus_init.1
    have hcard : (freeFrames touchingState).card = 2 := by
      decide
    obtain ⟨p, pmm, hp, hcall, hwf', hleft⟩ := alloc_page hwf (by omega)
    obtain ⟨q, pmm', hq, hcall', _, _⟩ := alloc_page hwf' (by omega)
    exact ⟨p, pmm, hp, hcall, q, pmm', hq, hcall'⟩
  obtain ⟨mem, h3⟩ := reachable_grow 0 h2 rfl hcall hp
  obtain ⟨mem', h4⟩ := reachable_grow 1 h3 rfl hcall' hq
  have h5 := reachable_install 0 h4 rfl
  have h6 := reachable_install 1 h5 rfl
  exact ⟨_, h6, rfl, rfl, slab_heap_sound h6⟩

end Cervus.Slab
