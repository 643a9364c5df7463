import Cervus.Memory.SlabRep

/-! # The books of the slab allocator

    `Books` ties the three accounts of the heap together: the pages that slabs hold
    (`Held`), what memory represents (`Rep`), and the objects that callers were given
    and have not freed. It says

    * that every slot of a slab is either free or a live object, never both;
    * that a slab is on the list where its number of free slots puts it.

    Each section of `kmalloc` and `kfree` keeps the books: `Books.take`, `Books.put`,
    `Books.add` for a new slab, `Books.drop` for one that is given back. -/

namespace Cervus.Slab

open Cervus.Pmm Cervus.Linked List

/-! ## Section 1: The pages of a slab -/

/-- The block of the page allocator under a slab. -/
def slabBlock (pmm : PmmBuddyState) (x : Nat × Fin 10) : PmmBlock :=
  ⟨x.1 - pmm.hhdmOffset, slabPages (gSizeClasses x.2) - 1⟩

/-- The pages of the slab are taken. -/
structure Held (pmm : PmmBuddyState) (x : Nat × Fin 10) : Prop where
  above   : pmm.hhdmOffset ≤ x.1
  aligned : (slabBlock pmm x).Aligned
  range   : ∀ f ∈ (slabBlock pmm x).frames,
    freeMinPhys / pageSize ≤ f ∧ f < pmm.memEnd / pageSize
  taken   : ∀ f ∈ (slabBlock pmm x).frames, f ∉ freeFrames pmm

theorem slabPages_order (c : Fin 10) :
    pagesToOrder (slabPages (gSizeClasses c)) = some (some (slabPages (gSizeClasses c) - 1)) ∧
      2 ^ (slabPages (gSizeClasses c) - 1) = slabPages (gSizeClasses c) := by
  rcases (classOk c).pages with h | h <;> rw [h] <;> decide

theorem slabLen_eq (c : Fin 10) : slabLen c = pageSize * 2 ^ (slabPages (gSizeClasses c) - 1) := by
  rw [(slabPages_order c).2]
  exact Nat.mul_comm _ _

variable {pmm pmm' : PmmBuddyState} {x : Nat × Fin 10} {a s : Nat} {V : View} {c : Fin 10}
  {rest : List Nat}

/-- The frames under a slab are those of its addresses. -/
theorem slabBlock_mem_frames (habove : pmm.hhdmOffset ≤ x.1) (ha : (slabBlock pmm x).Aligned) :
    InSlab x a ↔
      pmm.hhdmOffset ≤ a ∧ (a - pmm.hhdmOffset) / pageSize ∈ (slabBlock pmm x).frames := by
  unfold InSlab
  rw [slabLen_eq]
  exact ha.mem_frames_iff habove

theorem Held.mem_frames (h : Held pmm x) (ha : InSlab x a) :
    (a - pmm.hhdmOffset) / pageSize ∈ (slabBlock pmm x).frames :=
  ((slabBlock_mem_frames h.above h.aligned).mp ha).2

theorem Held.addr_of_frame (h : Held pmm x) {f : Nat} (hf : f ∈ (slabBlock pmm x).frames) :
    InSlab x (f * pageSize + pmm.hhdmOffset) := by
  refine (slabBlock_mem_frames h.above h.aligned).mpr ⟨by omega, ?_⟩
  rw [Nat.add_sub_cancel, Nat.mul_div_cancel _ pageSize_pos]
  exact hf

/-- A slab lies at a page, behind the first one, and ends inside the address space. -/
theorem Held.bounds (h : Held pmm x) (hwf : Wf pmm) (hhdm : pageSize ∣ pmm.hhdmOffset) :
    pageSize ∣ x.1 ∧ pageSize ≤ x.1 ∧ x.1 + slabLen x.2 ≤ 2 ^ 64 := by
  obtain ⟨q, hq⟩ := h.aligned.page
  obtain ⟨r, hr⟩ := hhdm
  obtain ⟨e, he⟩ := hwf.memEnd_aligned
  have hdm := hwf.direct_map
  have hfirst := (h.range _ (slabBlock pmm x).first_mem_frames).1
  have hlast := (h.range _ (slabBlock pmm x).last_mem_frames).2
  have hpages : 2 ^ (slabBlock pmm x).order = slabPages (gSizeClasses x.2) :=
    (slabPages_order x.2).2
  rw [hpages, hq, Nat.mul_div_cancel_left _ pageSize_pos, he,
    Nat.mul_div_cancel_left _ pageSize_pos] at hlast
  rw [hq, Nat.mul_div_cancel_left _ pageSize_pos] at hfirst
  have hmin : freeMinPhys / pageSize = 256 := by decide
  change x.1 - pmm.hhdmOffset = pageSize * q at hq
  unfold slabLen
  unfold pageSize at *
  refine ⟨⟨q + r, by omega⟩, by omega, by omega⟩

theorem slabBlock_region (hr : SameRegion pmm pmm') :
    slabBlock pmm' x = slabBlock pmm x := by
  unfold slabBlock
  rw [hr.hhdmOffset]

/-- The rest of the kernel may allocate and free pages that are not the slab's. -/
theorem Held.same_region (h : Held pmm x) (hr : SameRegion pmm pmm')
    (htaken : ∀ f ∈ (slabBlock pmm x).frames, f ∉ freeFrames pmm') : Held pmm' x := by
  refine ⟨?_, ?_, ?_, ?_⟩
  · rw [hr.hhdmOffset]
    exact h.above
  · rw [slabBlock_region hr]
    exact h.aligned
  · rw [slabBlock_region hr, hr.memEnd]
    exact h.range
  · rw [slabBlock_region hr]
    exact htaken

/-! ## Section 2: Lists in views -/

/-- Where a slab stands after a move between lists. -/
theorem View.mem_move {k : Bool} (hnodup : (V.lists c k).Nodup) (d : Fin 10) (j : Bool) (t : Nat) :
    t ∈ (V.move c s k).lists d j ↔ if d = c ∧ t = s then j = !k else t ∈ V.lists d j := by
  by_cases hd : d = c
  · subst hd
    by_cases ht : t = s
    · subst ht
      cases k <;> cases j <;> simp [View.move, View.setList, hnodup.not_mem_erase]
    · have herase : ∀ l : List Nat, t ∈ l.erase s ↔ t ∈ l := fun l => mem_erase_of_ne ht
      cases k <;> cases j <;> simp [View.move, View.setList, ht, herase]
  · simp [View.move, View.setList, hd]

theorem View.mem_take (hs : s ∈ V.lists c false) (hnot : s ∉ V.lists c true)
    (hnodup : (V.lists c false).Nodup) (d : Fin 10) (k : Bool) (t : Nat) :
    t ∈ (V.take c s rest).lists d k ↔ if d = c ∧ t = s then k = rest.isEmpty
      else t ∈ V.lists d k := by
  unfold View.take
  by_cases hrest : rest = []
  · have hnodup' : ((V.setFree s rest).lists c false).Nodup := hnodup
    rw [if_pos hrest, View.mem_move hnodup', hrest]
    cases k <;> simp [View.setFree]
  rw [if_neg hrest]
  have hempty : rest.isEmpty = false := by simpa using hrest
  rw [hempty]
  change t ∈ V.lists d k ↔ _
  by_cases hdt : d = c ∧ t = s
  · rw [if_pos hdt, hdt.1, hdt.2]
    cases k <;> simp [hs, hnot]
  · rw [if_neg hdt]

theorem View.take_free (V : View) (c : Fin 10) (s : Nat) (rest : List Nat) :
    (V.take c s rest).free = Function.update V.free s rest := by
  unfold View.take
  split <;> rfl

theorem View.put_free (V : View) (c : Fin 10) (s i : Nat) :
    (V.put c s i).free = Function.update V.free s (i :: V.free s) := by
  unfold View.put
  split <;> split <;> rfl

theorem View.mem_put {i : Nat} (hs : s ∈ V.lists c (V.free s).isEmpty)
    (hnodup : ∀ k, (V.lists c k).Nodup) (hdisj : ∀ t, t ∈ V.lists c false → t ∉ V.lists c true)
    (d : Fin 10) (k : Bool) (t : Nat) : t ∈ (V.put c s i).lists d k ↔
      if d = c ∧ t = s then k = false ∧ (V.free s).length + 1 ≠ capacity c
      else t ∈ V.lists d k := by
  simp only [View.put]
  generalize hW : (if V.free s = [] then (V.setFree s (i :: V.free s)).move c s true
    else V.setFree s (i :: V.free s)) = W
  -- after the move of a full slab the slab is on the partial list and only there
  have hmem : ∀ d k t, t ∈ W.lists d k ↔ if d = c ∧ t = s then k = false else t ∈ V.lists d k := by
    intro d k t
    rw [← hW]
    by_cases hfree : V.free s = []
    · have hnodup' : ((V.setFree s (i :: V.free s)).lists c true).Nodup := hnodup true
      rw [if_pos hfree, View.mem_move hnodup']
      cases k <;> simp [View.setFree]
    have hempty : (V.free s).isEmpty = false := by simpa using hfree
    rw [hempty] at hs
    rw [if_neg hfree]
    change t ∈ V.lists d k ↔ _
    by_cases hdt : d = c ∧ t = s
    · rw [if_pos hdt, hdt.1, hdt.2]
      cases k <;> simp [hs, hdisj s hs]
    · rw [if_neg hdt]
  have hWnodup : (W.lists c false).Nodup := by
    rw [← hW]
    split
    · next hfree =>
      have hnot : s ∉ V.lists c false := by
        intro hfalse
        rw [hfree] at hs
        exact hdisj s hfalse hs
      simp [View.move, View.setList, View.setFree, hnodup false, hnot]
    · exact hnodup false
  split
  · next hz =>
    by_cases hdt : d = c ∧ t = s
    · rw [if_pos hdt, hdt.1, hdt.2]
      have hm := hmem c k s
      cases k
      · simp [View.setList, hWnodup.not_mem_erase, hz]
      · simp [View.setList, hm]
    by_cases hdk : d = c ∧ k = false
    · have ht : t ≠ s := fun h => hdt ⟨hdk.1, h⟩
      have hm := hmem c false t
      simp only [View.setList, hdk, and_self, if_true, mem_erase_of_ne ht, hm, ht, and_false,
        if_false]
    · simp only [View.setList, if_neg hdk, hmem d k t, if_neg hdt]
  · next hz => rw [hmem d k t]; simp [hz]

/-! ## Section 3: The books -/

/-- Where its number of free slots puts a slab: on the partial list (`false`), on the
    full one (`true`), or on none. -/
def Listed (free cap : Nat) : Bool → Prop
  | false => 0 < free ∧ free < cap
  | true => free = 0

structure Books (st : SlabState) (slabs : List (Nat × Fin 10)) (live : List Obj) (V : View) :
    Prop where
  wf     : Wf st.pmm
  hhdm   : pageSize ∣ st.pmm.hhdmOffset
  held   : ∀ x ∈ slabs, Held st.pmm x
  apart  : ∀ x ∈ slabs, ∀ y ∈ slabs, ∀ a, InSlab x a → InSlab y a → x = y
  rep    : Rep st slabs V
  listed : ∀ s c k, (s, c) ∈ slabs →
    (s ∈ V.lists c k ↔ Listed (V.free s).length (capacity c) k)
  owner  : ∀ a ∈ live, ∃ s c i, (s, c) ∈ slabs ∧ i < capacity c ∧ i ∉ V.free s ∧
    a.ptr = slotAddr s c i ∧ a.size ≤ gSizeClasses c
  used   : ∀ s c i, (s, c) ∈ slabs → i < capacity c → i ∉ V.free s →
    slotAddr s c i ∈ live.map Obj.ptr
  uniq   : (live.map Obj.ptr).Nodup

section Books

variable {st st' : SlabState} {slabs : List (Nat × Fin 10)} {live : List Obj} {V V' : View}
  {s i : Nat} {c : Fin 10}

theorem Books.geom (h : Books st slabs live V) : Geom slabs where
  aligned _ _ hs := ((h.held _ hs).bounds h.wf h.hhdm).1
  low _ _ hs := ((h.held _ hs).bounds h.wf h.hhdm).2.1
  high _ _ hs := ((h.held _ hs).bounds h.wf h.hhdm).2.2
  apart := h.apart

/-- A slot belongs to one slab. -/
theorem Geom.slot_inj (g : Geom slabs) {t j : Nat} {d : Fin 10} (hs : (s, c) ∈ slabs)
    (hi : i < capacity c) (ht : (t, d) ∈ slabs) (hj : j < capacity d)
    (heq : slotAddr s c i = slotAddr t d j) : s = t ∧ c = d ∧ i = j := by
  have hst : s = t := by
    rw [← g.slabOf_slot hs hi, heq, g.slabOf_slot ht hj]
  subst hst
  have hcd := g.base_inj hs ht
  subst hcd
  exact ⟨rfl, rfl, slotAddr_inj heq⟩

/-- A slot that is free is not live. -/
theorem Books.free_not_live (h : Books st slabs live V) (hs : (s, c) ∈ slabs)
    (hi : i ∈ V.free s) : slotAddr s c i ∉ live.map Obj.ptr := by
  intro hmem
  obtain ⟨a, ha, hptr⟩ := mem_map.mp hmem
  obtain ⟨t, d, j, ht, hj, hnot, hptr', _⟩ := h.owner a ha
  have hlt := (h.rep.slab s c hs).range i hi
  obtain ⟨rfl, _, rfl⟩ := h.geom.slot_inj hs hlt ht hj (hptr.symm.trans hptr')
  exact hnot hi

/-- A slab with as many free slots as it has slots has no live object. -/
theorem SlabRep.all_free {m : Mem} {fr : List Nat} (h : SlabRep m s c fr)
    (hlen : fr.length = capacity c) (hi : i < capacity c) : i ∈ fr := by
  by_contra hnot
  have hnodup : (i :: fr).Nodup := nodup_cons.mpr ⟨hnot, h.nodup⟩
  have hsub : i :: fr ⊆ List.range (capacity c) := by
    intro j hj
    rw [mem_range]
    rcases mem_cons.mp hj with rfl | hj
    · exact hi
    · exact h.range j hj
  have := (subperm_of_subset hnodup hsub).length_le
  rw [length_cons, length_range] at this
  omega

/-- A slab with a live slot is on the list that its free slots say. -/
theorem Books.located (h : Books st slabs live V) (hs : (s, c) ∈ slabs) (hi : i < capacity c)
    (hnot : i ∉ V.free s) : s ∈ V.lists c (V.free s).isEmpty := by
  rw [h.listed s c _ hs]
  by_cases hfree : V.free s = []
  · simp [hfree, Listed]
  have hempty : (V.free s).isEmpty = false := by simpa using hfree
  rw [hempty]
  refine ⟨length_pos_iff.mpr hfree, ?_⟩
  have hle := (h.rep.slab s c hs).length_le
  by_contra hge
  exact hnot ((h.rep.slab s c hs).all_free (by omega) hi)

/-- **Taking a slot.** -/
theorem Books.take (h : Books st slabs live V) (hs : (s, c) ∈ slabs)
    (hfree : V.free s = i :: rest) {size : Nat} (hsize : size ≤ gSizeClasses c)
    (hpmm : st'.pmm = st.pmm) (hrep : Rep st' slabs V')
    (hfree' : V'.free = Function.update V.free s rest)
    (hlists : ∀ t d k, t ∈ V'.lists d k ↔ if d = c ∧ t = s then k = rest.isEmpty
      else t ∈ V.lists d k) :
    Books st' slabs (⟨slotAddr s c i, size⟩ :: live) V' := by
  have hslab := h.rep.slab s c hs
  rw [hfree] at hslab
  have hi : i < capacity c := hslab.range i (.head _)
  have hirest : i ∉ rest := (nodup_cons.mp hslab.nodup).1
  have hself : V'.free s = rest := by rw [hfree', Function.update_self]
  have hother : ∀ t, t ≠ s → V'.free t = V.free t := by
    intro t ht
    rw [hfree', Function.update_of_ne ht]
  have hmem : ∀ t j, j ∈ V'.free t ↔ j ∈ V.free t ∧ ¬ (t = s ∧ j = i) := by
    intro t j
    by_cases hts : t = s
    · rw [hts, hself, hfree]
      by_cases hj : j = i
      · simp [hj, hirest]
      · simp [hj]
    · simp [hother t hts, hts]
  refine ⟨?_, ?_, ?_, h.apart, hrep, ?_, ?_, ?_, ?_⟩
  · rw [hpmm]
    exact h.wf
  · rw [hpmm]
    exact h.hhdm
  · rw [hpmm]
    exact h.held
  · intro t d k ht
    rw [hlists]
    by_cases hts : t = s
    · subst hts
      obtain rfl : d = c := h.geom.base_inj ht hs
      rw [if_pos ⟨rfl, rfl⟩, hself]
      have hlen := hslab.length_le
      rw [length_cons] at hlen
      -- the slab keeps a free slot unless `i` was the last one
      cases rest with
      | nil => cases k <;> simp [Listed]
      | cons j rest =>
        rw [length_cons] at hlen
        cases k <;> simp [Listed]
        omega
    · rw [if_neg fun h' => hts h'.2, hother t hts]
      exact h.listed t d k ht
  · intro a ha
    rcases mem_cons.mp ha with rfl | ha
    · exact ⟨s, c, i, hs, hi, by rw [hself]; exact hirest, rfl, hsize⟩
    · obtain ⟨t, d, j, ht, hj, hnot, hptr, hle⟩ := h.owner a ha
      exact ⟨t, d, j, ht, hj, fun hj' => hnot ((hmem t j).mp hj').1, hptr, hle⟩
  · intro t d j ht hj hnot
    rw [map_cons, mem_cons]
    by_cases htj : t = s ∧ j = i
    · obtain ⟨rfl, rfl⟩ := htj
      obtain rfl : d = c := h.geom.base_inj ht hs
      exact .inl rfl
    · exact .inr (h.used t d j ht hj fun hj' => hnot ((hmem t j).mpr ⟨hj', htj⟩))
  · rw [map_cons, nodup_cons]
    exact ⟨h.free_not_live hs (by rw [hfree]; exact .head _), h.uniq⟩

/-- **Putting a slot back.** -/
theorem Books.put (h : Books st slabs live V) (hs : (s, c) ∈ slabs) (hi : i < capacity c)
    (hnot : i ∉ V.free s) (hpmm : st'.pmm = st.pmm) (hrep : Rep st' slabs (V.put c s i)) :
    Books st' slabs (live.filter fun a => a.ptr ≠ slotAddr s c i) (V.put c s i) := by
  have hself : (V.put c s i).free s = i :: V.free s := by
    rw [View.put_free, Function.update_self]
  have hother : ∀ t, t ≠ s → (V.put c s i).free t = V.free t := by
    intro t ht
    rw [View.put_free, Function.update_of_ne ht]
  have hmem : ∀ t j, j ∈ (V.put c s i).free t ↔ j ∈ V.free t ∨ (t = s ∧ j = i) := by
    intro t j
    by_cases hts : t = s
    · simp [hts, hself, or_comm]
    · simp [hother t hts, hts]
  refine ⟨?_, ?_, ?_, h.apart, hrep, ?_, ?_, ?_, ?_⟩
  · rw [hpmm]
    exact h.wf
  · rw [hpmm]
    exact h.hhdm
  · rw [hpmm]
    exact h.held
  · intro t d k ht
    rw [View.mem_put (h.located hs hi hnot) (h.rep.nodup c) (h.rep.disjoint c)]
    by_cases hts : t = s
    · subst hts
      obtain rfl : d = c := h.geom.base_inj ht hs
      rw [if_pos ⟨rfl, rfl⟩, hself]
      have hle := (hrep.slab t d ht).length_le
      rw [hself, length_cons] at hle
      cases k with
      | false =>
        simp only [Listed, length_cons, true_and]
        omega
      | true => simp [Listed]
    · rw [if_neg fun h' => hts h'.2, hother t hts]
      exact h.listed t d k ht
  · intro a ha
    obtain ⟨hin, hne⟩ := mem_filter.mp ha
    obtain ⟨t, d, j, ht, hj, hnot', hptr, hle⟩ := h.owner a hin
    refine ⟨t, d, j, ht, hj, fun hj' => ?_, hptr, hle⟩
    rcases (hmem t j).mp hj' with hj' | ⟨rfl, rfl⟩
    · exact hnot' hj'
    · obtain rfl : d = c := h.geom.base_inj ht hs
      simp [hptr] at hne
  · intro t d j ht hj hnot'
    rw [hmem, not_or] at hnot'
    obtain ⟨a, ha, hptr⟩ := mem_map.mp (h.used t d j ht hj hnot'.1)
    refine mem_map.mpr ⟨a, mem_filter.mpr ⟨ha, ?_⟩, hptr⟩
    rw [decide_eq_true_eq, hptr]
    intro heq
    obtain ⟨rfl, rfl, rfl⟩ := h.geom.slot_inj ht hj hs hi heq
    exact hnot'.2 ⟨rfl, rfl⟩
  · exact (filter_sublist.map Obj.ptr).nodup h.uniq

/-- **A new slab**, which no list has yet. -/
theorem Books.add (h : Books st slabs live V) (hwf : Wf st'.pmm) (hr : SameRegion st.pmm st'.pmm)
    (hcaches : st'.caches = st.caches) (hheld : Held st'.pmm (s, c))
    (hfrom : ∀ f ∈ (slabBlock st'.pmm (s, c)).frames, f ∈ freeFrames st.pmm)
    (hsub : ∀ f ∈ freeFrames st'.pmm, f ∈ freeFrames st.pmm)
    (hslab : SlabRep st'.mem s c (List.range (capacity c)))
    (hframe : ∀ a, ¬ InSlab (s, c) a → st'.mem a = st.mem a) :
    Books st' ((s, c) :: slabs) live (V.setFree s (List.range (capacity c))) := by
  -- the new pages were free, those of the other slabs were not
  have hfresh : ∀ x ∈ slabs, ∀ a, InSlab x a → ¬ InSlab (s, c) a := by
    intro x hx a hxa hsa
    have h1 := (h.held x hx).taken _ ((h.held x hx).mem_frames hxa)
    have h2 := hfrom _ (hheld.mem_frames hsa)
    rw [hr.hhdmOffset] at h2
    exact h1 h2
  have hne : ∀ t d, (t, d) ∈ slabs → t ≠ s := by
    rintro t d ht rfl
    exact hfresh _ ht t (inSlab_base t d) (inSlab_base t c)
  have hrep : Rep st' slabs V := h.rep.of_same
    (fun x hx a ha => hframe a (hfresh x hx a ha)) fun _ _ => by rw [hcaches]
  have hself : (V.setFree s (List.range (capacity c))).free s = List.range (capacity c) := by
    simp [View.setFree]
  have hother : ∀ t d, (t, d) ∈ slabs →
      (V.setFree s (List.range (capacity c))).free t = V.free t := by
    intro t d ht
    simp [View.setFree, hne t d ht]
  have hlisted : ∀ d k, s ∉ V.lists d k := fun d k hs => hne s d (h.rep.member d k s hs) rfl
  refine ⟨hwf, ?_, ?_, ?_, ?_, ?_, ?_, ?_, h.uniq⟩
  · rw [hr.hhdmOffset]
    exact h.hhdm
  · intro x hx
    rcases mem_cons.mp hx with rfl | hx
    · exact hheld
    · exact (h.held x hx).same_region hr fun f hf hf' => (h.held x hx).taken f hf (hsub f hf')
  · intro x hx y hy a hxa hya
    rcases mem_cons.mp hx with rfl | hx <;> rcases mem_cons.mp hy with rfl | hy
    · rfl
    · exact absurd hxa (hfresh y hy a hya)
    · exact absurd hya (hfresh x hx a hxa)
    · exact h.apart x hx y hy a hxa hya
  · refine ⟨?_, hrep.list, ?_, h.rep.nodup, h.rep.disjoint⟩
    · intro t d ht
      rcases mem_cons.mp ht with heq | ht
      · cases heq
        rw [hself]
        exact hslab
      · rw [hother t d ht]
        exact hrep.slab t d ht
    · exact fun d k t ht => mem_cons_of_mem _ (h.rep.member d k t ht)
  · intro t d k ht
    rcases mem_cons.mp ht with heq | ht
    · cases heq
      rw [hself, length_range]
      have hcap := (classOk c).cap_pos
      change s ∈ V.lists c k ↔ _
      cases k <;> simp only [Listed, hlisted, false_iff] <;> omega
    · rw [hother t d ht]
      exact h.listed t d k ht
  · intro a ha
    obtain ⟨t, d, j, ht, hj, hnot, hptr, hle⟩ := h.owner a ha
    exact ⟨t, d, j, mem_cons_of_mem _ ht, hj, by rw [hother t d ht]; exact hnot, hptr, hle⟩
  intro t d j ht hj hnot
  rcases mem_cons.mp ht with heq | ht
  · cases heq
    rw [hself, mem_range] at hnot
    exact absurd hj hnot
  · rw [hother t d ht] at hnot
    exact h.used t d j ht hj hnot

variable {pmm : PmmBuddyState}

/-- **A slab without live objects** goes back to the page allocator. -/
theorem Books.drop (h : Books st slabs live V) (hs : (s, c) ∈ slabs)
    (hempty : (V.free s).length = capacity c) (hwf : Wf pmm) (hr : SameRegion st.pmm pmm)
    (hfree : ∀ f ∈ freeFrames pmm, f ∈ (slabBlock st.pmm (s, c)).frames ∨ f ∈ freeFrames st.pmm) :
    Books { st with pmm } (slabs.filter fun x => x.1 ≠ s) live V := by
  have hmem : ∀ t d, (t, d) ∈ slabs.filter (fun x => x.1 ≠ s) ↔ (t, d) ∈ slabs ∧ t ≠ s := by
    intro t d
    rw [mem_filter, decide_eq_true_eq]
  have hcap := (classOk c).cap_pos
  refine ⟨hwf, ?_, ?_, ?_, ?_, ?_, ?_, ?_, h.uniq⟩
  · rw [hr.hhdmOffset]
    exact h.hhdm
  · rintro ⟨t, d⟩ hx
    obtain ⟨ht, hts⟩ := (hmem t d).mp hx
    refine (h.held _ ht).same_region hr fun f hf hf' => ?_
    rcases hfree f hf' with hin | hin
    · have heq := h.apart _ ht _ hs _ ((h.held _ ht).addr_of_frame hf)
        ((h.held _ hs).addr_of_frame hin)
      exact hts (congrArg Prod.fst heq)
    · exact (h.held _ ht).taken f hf hin
  · intro x hx y hy
    exact h.apart x (mem_filter.mp hx).1 y (mem_filter.mp hy).1
  · refine ⟨?_, h.rep.list, ?_, h.rep.nodup, h.rep.disjoint⟩
    · exact fun t d ht => h.rep.slab t d ((hmem t d).mp ht).1
    intro d k t ht
    refine (hmem t d).mpr ⟨h.rep.member d k t ht, ?_⟩
    rintro rfl
    have ht' := h.rep.member d k t ht
    obtain rfl : d = c := h.geom.base_inj ht' hs
    have hl := (h.listed t d k ht').mp ht
    cases k <;> simp only [Listed] at hl <;> omega
  · exact fun t d k ht => h.listed t d k ((hmem t d).mp ht).1
  · intro a ha
    obtain ⟨t, d, j, ht, hj, hnot, hptr, hle⟩ := h.owner a ha
    refine ⟨t, d, j, (hmem t d).mpr ⟨ht, ?_⟩, hj, hnot, hptr, hle⟩
    rintro rfl
    obtain rfl : d = c := h.geom.base_inj ht hs
    exact hnot ((h.rep.slab t d ht).all_free hempty hj)
  · exact fun t d j ht => h.used t d j ((hmem t d).mp ht).1

/-- Whatever happens outside the slabs. -/
theorem Books.other (h : Books st slabs live V) {mem : Mem} (hwf : Wf pmm)
    (hr : SameRegion st.pmm pmm)
    (hkeep : ∀ x ∈ slabs, ∀ a, InSlab x a → mem a = st.mem a ∧
      (a - pmm.hhdmOffset) / pageSize ∉ freeFrames pmm) :
    Books { st with mem, pmm } slabs live V := by
  refine ⟨hwf, ?_, ?_, h.apart, ?_, h.listed, h.owner, h.used, h.uniq⟩
  · rw [hr.hhdmOffset]
    exact h.hhdm
  · intro x hx
    refine (h.held x hx).same_region hr fun f hf => ?_
    have hnot := (hkeep x hx _ ((h.held x hx).addr_of_frame hf)).2
    rwa [hr.hhdmOffset, Nat.add_sub_cancel, Nat.mul_div_cancel _ pageSize_pos] at hnot
  · exact h.rep.of_same (fun x hx a ha => (hkeep x hx a ha).1) fun _ _ => rfl

/-- **A store into a live object.** -/
theorem Books.store (h : Books st slabs live V) {a : Obj} (ha : a ∈ live) {addr v : Nat}
    (hlo : a.ptr ≤ addr) (hhi : addr < a.ptr + a.size) (hv : v ≠ largeAllocMagic) :
    Books { st with mem := write st.mem addr v } slabs live V := by
  obtain ⟨s, c, i, hs, hi, hnot, hptr, hsize⟩ := h.owner a ha
  have hb := slotAddr_bounds (s := s) hi
  have hfit := (classOk c).slots_fit
  have hhdr : slabHdr = 32 := rfl
  have hslab := h.rep.slab s c hs
  have hrep : SlabRep (write st.mem addr v) s c (V.free s) := by
    refine ⟨?_, ?_, hslab.nodup, hslab.range, ?_⟩
    · rw [write_of_ne (by omega), hslab.hdr]
    · have hlist : freelistOf (write st.mem addr v) s = freelistOf st.mem s :=
        write_of_ne (by omega)
      rw [hlist]
      apply hslab.chain.congr
      intro b hb'
      obtain ⟨j, hj, rfl⟩ := mem_map.mp hb'
      -- the links lie in free slots, the store in another one
      have hij : i ≠ j := fun heq => hnot (heq ▸ hj)
      apply write_of_ne
      rcases Nat.lt_or_gt_of_ne hij with hlt | hgt
      · have := slotAddr_disjoint (s := s) (c := c) hlt
        omega
      · have := slotAddr_disjoint (s := s) (c := c) hgt
        omega
    intro b hblo hbhi hdvd
    by_cases hba : b = addr
    · rw [hba, write_self]
      exact hv
    · rw [write_of_ne hba]
      exact hslab.clean b hblo hbhi hdvd
  have h' := h.rep.body h.geom hs (fun b hb' => write_of_ne (by omega)) hrep
  have hsame : V.setFree s (V.free s) = V := by simp [View.setFree]
  rw [hsame] at h'
  exact ⟨h.wf, h.hhdm, h.held, h.apart, h', h.listed, h.owner, h.used, h.uniq⟩

end Books

end Cervus.Slab
