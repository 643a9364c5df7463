import Cervus.Memory.Heap

/-! # Which objects `kfree` takes for large allocations

    `kfree` and `krealloc` tell large allocations from objects of slabs by the word two
    before the pointer. For a large allocation that word is in its header. For the first
    slot of a slab it is in the slab's header and never the magic number; for any other
    slot it belongs to a slot before, where the owner of that slot may have stored
    anything, and may have left it when the slot was freed.

    The proof compares the heap with one in which owners never store the magic number:
    the two memories differ only in words that hold it (`Masks`), and the allocator, which
    reads headers and free list links only, does the same in both (`Same`). So the second
    heap is a run of the slab allocator's system, and its invariant applies. -/

namespace Cervus.Slab

open Cervus.Pmm Cervus.Linked List Multiset

/-! ## Section 1: The same writes to two memories -/

/-- `n` and `n'` come from `m` and `m'` by the same writes, at addresses of `P`. -/
def Same (P : Nat → Prop) (m m' n n' : Mem) : Prop :=
  ∀ a, (n a = m a ∧ n' a = m' a) ∨ (P a ∧ n a = n' a)

section Same

variable {P : Nat → Prop} {m m' n n' k k' : Mem} {a v s h : Nat}

theorem Same.refl (P : Nat → Prop) (m m' : Mem) : Same P m m' m m' := fun _ => .inl ⟨rfl, rfl⟩

/-- Words that are equal stay equal. -/
theorem Same.agree (hs : Same P m m' n n') (h : m a = m' a) : n a = n' a := by
  rcases hs a with ⟨h1, h2⟩ | ⟨_, h1⟩
  · rw [h1, h2, h]
  · exact h1

theorem Same.trans (h1 : Same P m m' n n') (h2 : Same P n n' k k') : Same P m m' k k' := by
  intro a
  rcases h2 a with ⟨hk, hk'⟩ | ⟨hP, heq⟩
  · rcases h1 a with ⟨hn, hn'⟩ | ⟨hP, heq⟩
    · exact .inl ⟨hk.trans hn, hk'.trans hn'⟩
    · exact .inr ⟨hP, by rw [hk, hk', heq]⟩
  · exact .inr ⟨hP, heq⟩

theorem Same.frame (hs : Same P m m' n n') (hP : ¬ P a) : n a = m a := by
  rcases hs a with ⟨h1, _⟩ | ⟨h1, _⟩
  · exact h1
  · exact absurd h1 hP

theorem write_same (v : Nat) (hP : P a) : Same P m m' (write m a v) (write m' a v) := by
  intro b
  by_cases hb : b = a
  · rw [hb, write_self, write_self]
    exact .inr ⟨hP, rfl⟩
  · rw [write_of_ne hb, write_of_ne hb]
    exact .inl ⟨rfl, rfl⟩

theorem push_same (hs : P s) (hs' : P (s + 8)) (hh : h ≠ 0 → P (h + 8)) :
    Same P m m' (push 8 m h s).1 (push 8 m' h s).1 := by
  have hnext : Same P m m' (write m s h) (write m' s h) := write_same h hs
  have hfirst := hnext.trans (write_same 0 hs')
  unfold push
  by_cases hz : h = 0
  · simp only [hz, ne_eq, not_true, if_false] at hfirst ⊢
    exact hfirst
  · simp only [ne_eq, hz, not_false_eq_true, if_true]
    exact hfirst.trans (write_same s (hh hz))

/-- Unlinking reads the two links of the node. -/
theorem unlink_same (hn : m s = m' s) (hp : m (s + 8) = m' (s + 8)) (hs : P s) (hs' : P (s + 8))
    (hprev : m' (s + 8) ≠ 0 → P (m' (s + 8))) (hnext : m' s ≠ 0 → P (m' s + 8))
    (hne : m' (s + 8) ≠ s) (hne' : m' (s + 8) ≠ s + 8) : (unlink 8 m h s).2 = (unlink 8 m' h s).2 ∧
      Same P m m' (unlink 8 m h s).1 (unlink 8 m' h s).1 := by
  -- the memories after the node before `s` was relinked
  have hfirst : ∃ k k' x, (if m (s + 8) ≠ 0 then (write m (m (s + 8)) (m s), h) else (m, m s)) =
      (k, x) ∧ (if m' (s + 8) ≠ 0 then (write m' (m' (s + 8)) (m' s), h) else (m', m' s)) =
      (k', x) ∧ Same P m m' k k' ∧ k' s = m' s ∧ k' (s + 8) = m' (s + 8) := by
    by_cases hz : m' (s + 8) = 0
    · refine ⟨m, m', m' s, ?_, ?_, Same.refl _ _ _, rfl, rfl⟩
      · simp [hp, hz, hn]
      · simp [hz]
    refine ⟨write m (m' (s + 8)) (m' s), write m' (m' (s + 8)) (m' s), h, ?_, ?_,
      write_same _ (hprev hz), write_of_ne (Ne.symm hne), write_of_ne (Ne.symm hne')⟩
    · simp [hp, hz, hn]
    · simp [hz]
  obtain ⟨k, k', x, hk, hk', hsame, hks, hkp⟩ := hfirst
  have hks' : k s = k' s := hsame.agree hn
  have hkp' : k (s + 8) = k' (s + 8) := hsame.agree hp
  unfold unlink
  simp only [hk, hk', hks', hkp', hks, hkp]
  refine ⟨trivial, ?_⟩
  by_cases hz : m' s = 0
  · simp only [hz, ne_eq, not_true, if_false]
    exact (hsame.trans (write_same 0 hs)).trans (write_same 0 hs')
  · simp only [ne_eq, hz, not_false_eq_true, if_true]
    exact ((hsame.trans (write_same _ (hnext hz))).trans (write_same 0 hs)).trans (write_same 0 hs')

theorem setField_same (f : Nat) (hw : m (s + 24) = m' (s + 24)) (hP : P (s + 24)) :
    Same P m m' (setField m s f v) (setField m' s f v) := by
  unfold setField
  rw [hw]
  exact write_same _ hP

/-- The counts are read from one word. -/
theorem fields_same (hw : m (s + 24) = m' (s + 24)) :
    objSizeOf m s = objSizeOf m' s ∧ totalOf m s = totalOf m' s ∧ usedOf m s = usedOf m' s := by
  unfold objSizeOf totalOf usedOf
  rw [hw]
  exact ⟨rfl, rfl, rfl⟩

theorem takeSlot_same {obj : Nat} (hobj : m obj = m' obj) (hw : m (s + 24) = m' (s + 24))
    (hP : ∀ a, s + 16 ≤ a → a < s + 32 → P a) :
    Same P m m' (takeSlot m s obj) (takeSlot m' s obj) := by
  have hfirst : Same P m m' (setFreelist m s (m obj)) (setFreelist m' s (m' obj)) := by
    rw [hobj]
    exact write_same _ (hP _ (by omega) (by omega))
  have hw' := hfirst.agree hw
  unfold takeSlot
  simp only [(fields_same hw').2.2]
  exact hfirst.trans (setField_same 2 hw' (hP _ (by omega) (by omega)))

theorem freeSlot_same {ptr : Nat} (hl : m (s + 16) = m' (s + 16))
    (hw : m (s + 24) = m' (s + 24)) (hptr : P ptr) (hP : ∀ a, s + 16 ≤ a → a < s + 32 → P a) :
    Same P m m' (freeSlot m s ptr) (freeSlot m' s ptr) := by
  have hfirst : Same P m m' (setFreelist (write m ptr (freelistOf m s)) s ptr)
      (setFreelist (write m' ptr (freelistOf m' s)) s ptr) := by
    unfold setFreelist freelistOf
    rw [hl]
    exact (write_same _ hptr).trans (write_same _ (hP _ (by omega) (by omega)))
  have hw' := hfirst.agree hw
  simp only [freeSlot]
  rw [(fields_same hw').2.2]
  exact hfirst.trans (setField_same 2 hw' (hP _ (by omega) (by omega)))

theorem linkSlots_same {start size total : Nat} (hP : ∀ i < total, P (start + i * size)) :
    Same P m m' (linkSlots m start size total) (linkSlots m' start size total) := by
  have hloop : ∀ j ≤ total, Same P m m' ((List.range j).foldl (fun m i => write m (start + i * size)
        (if i + 1 < total then start + (i + 1) * size else 0)) m)
      ((List.range j).foldl (fun m i => write m (start + i * size)
        (if i + 1 < total then start + (i + 1) * size else 0)) m') := by
    intro j
    induction j with
    | zero => intro _; exact Same.refl _ _ _
    | succ j ih =>
      intro hj
      rw [List.range_succ, foldl_append, foldl_append]
      exact (ih (by omega)).trans (write_same _ (hP j (by omega)))
  exact hloop total (le_rfl)

end Same

/-- The second memory has another number where the first one holds the magic number. -/
def Masks (m m' : Mem) : Prop := ∀ a, m' a = m a ∨ (m a = largeAllocMagic ∧ m' a = 1)

variable {m m' : Mem}

theorem Masks.read (h : Masks m m') {a : Nat} (hne : m' a ≠ 1) : m a = m' a := by
  rcases h a with heq | ⟨_, hone⟩
  · exact heq.symm
  · exact absurd hone hne

theorem Masks.same {P : Nat → Prop} {n n' : Mem} (h : Masks m m') (hs : Same P m m' n n') :
    Masks n n' := by
  intro a
  rcases hs a with ⟨hn, hn'⟩ | ⟨_, heq⟩
  · rw [hn, hn']
    exact h a
  · exact .inl heq.symm

/-! ## Section 2: The allocator reads no data of objects -/

/-- Some slab has the address. -/
def InSlabs (slabs : List (Nat × Fin 10)) (a : Nat) : Prop := ∃ x ∈ slabs, InSlab x a

theorem chain_dvd :
    ∀ {l : List Nat} {h : Nat}, Chain m h l → (∀ a ∈ l, 8 ∣ a) → 8 ∣ h ∧ ∀ a ∈ l, 8 ∣ m a := by
  intro l
  induction l with
  | nil =>
    intro h hc _
    have hz : h = 0 := hc
    exact ⟨by rw [hz]; exact Nat.dvd_zero 8, fun a ha => nomatch ha⟩
  | cons b l ih =>
    intro h hc hd
    obtain ⟨rfl, _, hrest⟩ := hc
    obtain ⟨hnext, hwords⟩ := ih hrest fun a ha => hd a (.tail _ ha)
    refine ⟨hd h (.head _), ?_⟩
    exact List.forall_mem_cons.mpr ⟨hnext, hwords⟩

theorem ne_one_of_dvd {n : Nat} (h : 8 ∣ n) : n ≠ 1 := by omega

section Sections

variable {st : SlabState} {slabs : List (Nat × Fin 10)} {V : View} {c : Fin 10} {s i : Nat}
  {m : Mem}

theorem inSlabs_head (hs : (s, c) ∈ slabs) {a : Nat} (hlo : s ≤ a)
    (hhi : a < s + pageSize) : InSlabs slabs a := ⟨(s, c), hs, inSlab_of_lt hlo hhi⟩

/-- The words of the header that follow the links. -/
theorem inSlabs_header (hs : (s, c) ∈ slabs) (a : Nat) (hlo : s + 16 ≤ a) (hhi : a < s + 32) :
    InSlabs slabs a := by
  have hpage : pageSize = 4096 := rfl
  exact inSlabs_head hs (by omega) (by omega)

variable {fr rest : List Nat} {k : Bool} {m' : Mem}

theorem SlabRep.hdr_ne_one (h : SlabRep m s c fr) : m (s + 24) ≠ 1 := by
  intro hone
  have hsize := h.fields.1
  have hge := (classOk c).size_ge
  unfold objSizeOf at hsize
  rw [hone] at hsize
  have hfield : field16 1 0 = 1 := by decide
  omega

/-- The free list's words are addresses of slots. -/
theorem SlabRep.links (h : SlabRep m s c fr) (h8 : 8 ∣ s) :
    m (s + 16) ≠ 1 ∧ ∀ i ∈ fr, m (slotAddr s c i) ≠ 1 := by
  obtain ⟨hhead, hwords⟩ := chain_dvd h.chain (by
    intro a ha
    obtain ⟨i, _, rfl⟩ := List.mem_map.mp ha
    exact slotAddr_dvd c i h8)
  refine ⟨ne_one_of_dvd hhead, ?_⟩
  intro i hi
  exact ne_one_of_dvd (hwords _ (List.mem_map_of_mem hi))

/-- What the two links of a slab on a list can be. -/
structure ListWords (slabs : List (Nat × Fin 10)) (m : Mem) (s : Nat) : Prop where
  next    : m s ≠ 1
  prev    : m (s + 8) ≠ 1
  inNext  : m s ≠ 0 → InSlabs slabs (m s + 8)
  inPrev  : m (s + 8) ≠ 0 → InSlabs slabs (m (s + 8))
  prev_ne : m (s + 8) ≠ s ∧ m (s + 8) ≠ s + 8

theorem Rep.head_inSlabs (h : Rep st slabs V) (hne : (st.caches c).head k ≠ 0) :
    InSlabs slabs ((st.caches c).head k + 8) := by
  have hpage : pageSize = 4096 := rfl
  exact inSlabs_head (h.member c k _ ((h.list c k).head_mem hne)) (by omega) (by omega)

/-- Removing a slab from its list. -/
theorem slabListRemove_same (head : Nat) (hs : (s, c) ∈ slabs) (hw : ListWords slabs m' s)
    (hm : Masks m m') : (slabListRemove m head s).2 = (slabListRemove m' head s).2 ∧
      Same (InSlabs slabs) m m' (slabListRemove m head s).1 (slabListRemove m' head s).1 := by
  have hpage : pageSize = 4096 := rfl
  exact unlink_same (hm.read hw.next) (hm.read hw.prev) (inSlabs_head hs (by omega) (by omega))
    (inSlabs_head hs (by omega) (by omega)) hw.inPrev hw.inNext hw.prev_ne.1 hw.prev_ne.2

theorem slabListPush_same {head : Nat} (hs : (s, c) ∈ slabs)
    (hh : head ≠ 0 → InSlabs slabs (head + 8)) :
    Same (InSlabs slabs) m m' (slabListPush m head s).1 (slabListPush m' head s).1 := by
  have hpage : pageSize = 4096 := rfl
  exact push_same (inSlabs_head hs (by omega) (by omega)) (inSlabs_head hs (by omega) (by omega)) hh

theorem slabListPush_snd (m : Mem) (head s : Nat) : (slabListPush m head s).2 = s := rfl

theorem ListWords.congr (h : ListWords slabs m s) (hn : m' s = m s) (hp : m' (s + 8) = m (s + 8)) :
    ListWords slabs m' s := by
  refine ⟨?_, ?_, ?_, ?_, ?_⟩
  · rw [hn]
    exact h.next
  · rw [hp]
    exact h.prev
  · rw [hn]
    exact h.inNext
  · rw [hp]
    exact h.inPrev
  · rw [hp]
    exact h.prev_ne

def SlabState.withMem (st : SlabState) (m : Mem) : SlabState := { st with mem := m }

/-- Moving a slab that was full. -/
theorem refile_same (cache : SlabCache) {full : Bool} (hs : (s, c) ∈ slabs)
    (hw : full = true → ListWords slabs m' s)
    (hh : cache.partialHead ≠ 0 → InSlabs slabs (cache.partialHead + 8)) (hm : Masks m m') :
    (refile m cache s full).2 = (refile m' cache s full).2 ∧
      Same (InSlabs slabs) m m' (refile m cache s full).1 (refile m' cache s full).1 := by
  unfold refile
  cases full with
  | false => exact ⟨rfl, Same.refl _ _ _⟩
  | true =>
    obtain ⟨hhead, hsame1⟩ := slabListRemove_same cache.fullHead hs (hw rfl) hm
    have hsame2 : Same (InSlabs slabs) (slabListRemove m cache.fullHead s).1
        (slabListRemove m' cache.fullHead s).1
        (slabListPush (slabListRemove m cache.fullHead s).1 cache.partialHead s).1
        (slabListPush (slabListRemove m' cache.fullHead s).1 cache.partialHead s).1 :=
      slabListPush_same hs hh
    simp only [if_true, hhead]
    exact ⟨rfl, hsame1.trans hsame2⟩

section

variable (h : Rep st slabs V) (g : Geom slabs)
include h g

theorem Rep.listWords (hs : s ∈ V.lists c k) : ListWords slabs st.mem s := by
  have hpage : pageSize = 4096 := rfl
  obtain ⟨l1, l2, hl⟩ := append_of_mem hs
  have hd := h.list c k
  have hnodup := h.nodup c k
  have hapart : Apart 8 (V.lists c k) := g.apart_list fun t ht => ⟨c, h.member c k t ht⟩
  have hmem := h.member c k
  rw [hl] at hd hnodup hapart hmem
  -- a link is null or a slab of the list
  have hlink : ∀ {t l}, t = 0 ∨ t ∈ l → l ⊆ l1 ++ s :: l2 →
      t ≠ 1 ∧ (t ≠ 0 → InSlabs slabs t ∧ InSlabs slabs (t + 8)) := by
    rintro t l (rfl | ht) hl
    · exact ⟨by decide, fun hne => absurd rfl hne⟩
    · have hslab := hmem t (hl ht)
      exact ⟨ne_one_of_dvd (g.dvd8 hslab), fun _ =>
        ⟨inSlabs_head hslab (by omega) (by omega), inSlabs_head hslab (by omega) (by omega)⟩⟩
  have hnext := hlink hd.next_mem fun _ ht => mem_append_right _ (.tail _ ht)
  have hprev := hlink hd.prev_mem fun _ ht => mem_append_left _ ht
  exact ⟨hnext.1, hprev.1, fun hne => (hnext.2 hne).2, fun hne => (hprev.2 hne).1,
    hd.prev_ne hnodup hapart⟩

/-- **The critical section of `kmalloc`.** -/
theorem takeObject_same {P : List Nat} (hP : V.lists c false = s :: P)
    (hfree : V.free s = i :: rest) (hm : Masks m st.mem) :
    ∃ n, takeObject (st.withMem m) c = ((takeObject st c).1, (takeObject st c).2.withMem n) ∧
      Same (InSlabs slabs) m st.mem n (takeObject st c).2.mem := by
  have hlist : s ∈ V.lists c false := by
    rw [hP]
    exact .head _
  have hs := h.member c false s hlist
  have hhead : (st.caches c).partialHead = s := by
    have hd := h.list c false
    rw [hP] at hd
    exact hd.head_eq
  have hslab := h.slab s c hs
  have hlinks := hslab.links (g.dvd8 hs)
  rw [hfree] at hslab hlinks
  have hobj := hslab.take.1
  have hobj' : freelistOf m s = slotAddr s c i := by
    rw [← hobj]
    exact hm.read hlinks.1
  have hsame1 := takeSlot_same (hm.read (hlinks.2 i (.head _))) (hm.read hslab.hdr_ne_one)
    (inSlabs_header hs)
  -- the links of the slab are not touched
  have hwords : ListWords slabs (takeSlot st.mem s (slotAddr s c i)) s := by
    refine (h.listWords g hlist).congr ?_ ?_
    · unfold takeSlot setField setFreelist
      rw [write_of_ne (by omega), write_of_ne (by omega)]
    · unfold takeSlot setField setFreelist
      rw [write_of_ne (by omega), write_of_ne (by omega)]
  have hw := hsame1.agree (hm.read hslab.hdr_ne_one)
  have hm1 := hm.same hsame1
  unfold takeObject
  simp only [SlabState.withMem, hhead, hobj, hobj']
  generalize takeSlot m s (slotAddr s c i) = m1 at hsame1 hw hm1
  generalize takeSlot st.mem s (slotAddr s c i) = m1' at hsame1 hw hm1 hwords
  rw [(fields_same hw).2.1, (fields_same hw).2.2]
  by_cases hfull : usedOf m1' s = totalOf m1' s
  · obtain ⟨hhead2, hsame2⟩ := slabListRemove_same s hs hwords hm1
    have hsame3 : Same (InSlabs slabs) (slabListRemove m1 s s).1 (slabListRemove m1' s s).1
        (slabListPush (slabListRemove m1 s s).1 (st.caches c).fullHead s).1
        (slabListPush (slabListRemove m1' s s).1 (st.caches c).fullHead s).1 :=
      slabListPush_same hs fun hne => h.head_inSlabs (k := true) hne
    rw [if_pos hfull, if_pos hfull, hhead2]
    refine ⟨(slabListPush (slabListRemove m1 s s).1 (st.caches c).fullHead s).1, ?_,
      (hsame1.trans hsame2).trans hsame3⟩
    simp only [slabListPush_snd]
    rfl
  · rw [if_neg hfull, if_neg hfull]
    exact ⟨m1, rfl, hsame1⟩

/-- **The section of `kmalloc` that installs a new slab.** -/
theorem installSlab_same (hs : (s, c) ∈ slabs) (hnot : ∀ k, s ∉ V.lists c k)
    (hfree : V.free s = i :: rest) (hm : Masks m st.mem) :
    ∃ n, installSlab (st.withMem m) c s =
        ((installSlab st c s).1, (installSlab st c s).2.withMem n) ∧
      Same (InSlabs slabs) m st.mem n (installSlab st c s).2.mem := by
  have h1 := h.push (k := false) g hs hnot
  have hfirst : (V.setList c false (s :: V.lists c false)).lists c false =
      s :: V.lists c false := View.setList_self _ _ _ _
  have hsame1 : Same (InSlabs slabs) m st.mem (slabListPush m (st.caches c).partialHead s).1
      (slabListPush st.mem (st.caches c).partialHead s).1 :=
    slabListPush_same hs fun hne => h.head_inSlabs (k := false) hne
  obtain ⟨n, hcall, hsame2⟩ := takeObject_same h1 g hfirst hfree (hm.same hsame1)
  exact ⟨n, hcall, hsame1.trans hsame2⟩

/-- **The critical section of `kfree`.** -/
theorem releaseObject_same (hs : (s, c) ∈ slabs) (hi : i < capacity c) (hnot : i ∉ V.free s)
    (hloc : s ∈ V.lists c (V.free s).isEmpty) (hm : Masks m st.mem) :
    ∃ n, releaseObject (st.withMem m) (slotAddr s c i) =
        ((releaseObject st (slotAddr s c i)).1.withMem n, (releaseObject st (slotAddr s c i)).2) ∧
      Same (InSlabs slabs) m st.mem n (releaseObject st (slotAddr s c i)).1.mem := by
  have hslab := h.slab s c hs
  have hb := slotAddr_bounds (s := s) hi
  have hw := hm.read hslab.hdr_ne_one
  have hsame1 := freeSlot_same (hm.read (hslab.links (g.dvd8 hs)).1) hw
    (inSlabs_head hs (by omega) hb.2.1 : InSlabs slabs (slotAddr s c i)) (inSlabs_header hs)
  have hm1 := hm.same hsame1
  have hw1 := hsame1.agree hw
  have h1 := h.freeSlot g hs hi hnot
  have hfields := fields_same hw
  unfold releaseObject
  simp only [SlabState.withMem, g.slabOf_slot hs hi, hfields, hslab.fields.1, cacheOf_class,
    hslab.full_eq]
  generalize freeSlot m s (slotAddr s c i) = m1 at hsame1 hm1 hw1
  generalize freeSlot st.mem s (slotAddr s c i) = m1' at hsame1 hm1 hw1 h1
  have hheads : ∀ k, SlabCache.head { st.caches c with
      totalFrees := (st.caches c).totalFrees + 1 } k = (st.caches c).head k :=
    fun k => by cases k <;> rfl
  generalize { st.caches c with totalFrees := (st.caches c).totalFrees + 1 } = cache at hheads ⊢
  -- the slab is on the full list if and only if it was full
  obtain ⟨h2, hmem⟩ := refile_rep cache h1 g hheads hloc
  have hlocw : (V.free s).isEmpty = true → ListWords slabs m1' s := by
    intro hempty
    rw [hempty] at hloc
    exact h1.listWords g (k := true) hloc
  have hp : cache.partialHead = (st.caches c).partialHead := hheads false
  obtain ⟨hcache2, hsame2⟩ := refile_same cache hs hlocw
    (by rw [hp]; exact fun hne => h.head_inSlabs (k := false) hne) hm1
  rw [hcache2]
  have hm2 := hm1.same hsame2
  have hw2 := hsame2.agree hw1
  have hwords2 : ListWords slabs (refile m1' cache s (V.free s).isEmpty).1 s := h2.listWords g hmem
  generalize refile m1' cache s (V.free s).isEmpty = r' at hsame2 hm2 hw2 hwords2
  rw [(fields_same hw2).2.2]
  by_cases hz : usedOf r'.1 s = 0
  · -- the slab is empty and leaves the partial list
    obtain ⟨hhead3, hsame3⟩ := slabListRemove_same r'.2.partialHead hs hwords2 hm2
    rw [if_pos hz, if_pos hz, (fields_same (hsame3.agree hw2)).1, hhead3]
    exact ⟨_, rfl, (hsame1.trans hsame2).trans hsame3⟩
  · rw [if_neg hz, if_neg hz]
    exact ⟨_, rfl, hsame1.trans hsame2⟩

end

theorem initSlab_same (s size cap : Nat) (hw : m (s + 24) = m' (s + 24)) :
    Same (fun _ => True) m m' (initSlab m s size cap) (initSlab m' s size cap) := by
  have h1 : Same (fun _ => True) m m' (setField m s 0 size) (setField m' s 0 size) :=
    setField_same 0 hw trivial
  have h2 := h1.trans (setField_same (v := cap) 1 (h1.agree hw) trivial)
  have h3 := h2.trans (setField_same (v := 0) 2 (h2.agree hw) trivial)
  have h4 := h3.trans (write_same (a := s + 8) 0 trivial)
  have h5 := h4.trans (write_same (a := s) 0 trivial)
  have h6 := h5.trans (write_same (a := s + 16) (slabObjStart s) trivial)
  have htotal := h6.agree hw
  unfold initSlab totalOf setFreelist
  simp only
  rw [htotal]
  exact h6.trans (linkSlots_same fun _ _ => trivial)

/-- **`_slab_new`** writes to the pages of the new slab only, and these were free. -/
theorem slabNew_same {st1 : SlabState} (hwf : Wf st.pmm) (hhdm : pageSize ∣ st.pmm.hhdmOffset)
    (hcall : slabNew (st.withMem m) c = some (s, st1)) :
    ∃ st2, slabNew st c = some (s, st2) ∧ st1 = st2.withMem st1.mem ∧
      ((s = 0 ∧ st1 = st.withMem m ∧ st2 = st) ∨
        (s ≠ 0 ∧ Same (InSlabs [(s, c)]) m st.mem st1.mem st2.mem)) := by
  have hwf' : Wf (st.withMem m).pmm := hwf
  rcases slabNew_cases hwf' hcall with
    ⟨rfl, hall⟩ | ⟨hne, pmm, hheld, htaken, hall⟩
  · cases hcall.symm.trans (hall m)
    exact ⟨st, hall st.mem, rfl, .inl ⟨rfl, rfl, rfl⟩⟩
  cases hcall.symm.trans (hall m)
  have hoffset : pmm.hhdmOffset = st.pmm.hhdmOffset := htaken.region.hhdmOffset
  obtain ⟨ha, _, hhigh⟩ := hheld.bounds htaken.wf (by rw [hoffset]; exact hhdm)
  refine ⟨_, hall st.mem, rfl, .inr ⟨hne, ?_⟩⟩
  have hpage : pageSize = 4096 := rfl
  have hclear : ∀ a, InSlab (s, c) a → clear m s (slabLen c) a = clear st.mem s (slabLen c) a :=
    fun a hin => (if_pos hin).trans (if_pos hin).symm
  have hsame := initSlab_same s (gSizeClasses c) (capacity c)
    (hclear (s + 24) (inSlab_of_lt (by omega) (by omega)))
  intro a
  by_cases hin : InSlab (s, c) a
  · exact .inr ⟨⟨_, List.mem_singleton.mpr rfl, hin⟩, hsame.agree (hclear a hin)⟩
  · exact .inl ⟨(freshSlab_rep m ha hhigh).2 a hin, (freshSlab_rep st.mem ha hhigh).2 a hin⟩

end Sections

/-! ## Section 3: The run without magic numbers -/

/-- Without magic numbers `kfree` takes every object of a slab for one. -/
def Pc.settled : Pc → Pc
  | .large p => .release p
  | p => p

section Simulation

variable {Cpu : Type} [DecidableEq Cpu] {cpu : Cpu}

/-- The system with another memory, in which no CPU has taken a wrong branch. -/
def SlabSys.masked (sys : SlabSys Cpu) (m' : Mem) : SlabSys Cpu :=
  { sys with st := sys.st.withMem m', pc := fun k => (sys.pc k).settled }

theorem SlabSys.masked_setPc (sys : SlabSys Cpu) (cpu : Cpu) (p : Pc) (m' : Mem) :
    (sys.setPc cpu p).masked m' = (sys.masked m').setPc cpu p.settled := by
  unfold SlabSys.masked SlabSys.setPc
  simp only [SlabSys.mk.injEq, true_and, and_true]
  funext k
  split <;> rfl

omit [DecidableEq Cpu] in
theorem SlabSys.masked_pc {sys : SlabSys Cpu} {p : Pc} (h : sys.pc cpu = p) (m' : Mem) :
    (sys.masked m').pc cpu = p.settled := congrArg Pc.settled h

/-- What a section of the allocator does to the two memories: the same, and only in slabs. -/
structure Follows (sys sys' : SlabSys Cpu) (l : SlabLabel Cpu) (m' n' : Mem) : Prop where
  step  : SlabStep (sys.masked m') l (sys'.masked n')
  masks : Masks sys'.st.mem n'
  frame : ∀ a, ¬ InSlabs sys'.slabs a → sys'.st.mem a = sys.st.mem a

variable {sys sys' : SlabSys Cpu} {m' mem : Mem} {cpu : Cpu} {size a order : Nat}
  {l : SlabLabel Cpu}
  {b : Large} {pmm : PmmBuddyState}

section

variable (hm : Masks sys.st.mem m') (hinv : Inv (sys.masked m'))
include hm hinv

theorem section_kmalloc (hidle : sys.pc cpu = .idle) (hlo : 1 ≤ size) (hhi : size ≤ slabMaxSize) :
    ∃ n', Follows sys (match kmallocEnter sys.st size with
      | .null => sys
      | .grow c => sys.setPc cpu (.grow c size)
      | .object obj st => { sys with st, live := ⟨obj, size⟩ :: sys.live }) (.kmalloc cpu size)
      m' n' := by
  have hidle' : (sys.masked m').pc cpu = .idle := SlabSys.masked_pc hidle m'
  obtain ⟨V, h, _⟩ := hinv
  unfold kmallocEnter
  cases hc : cacheFor size with
  | none =>
    refine ⟨m', ⟨hidle', hlo, hhi, ?_⟩, hm, fun _ _ => rfl⟩
    simp only [kmallocEnter, hc]
  | some c =>
    simp only
    by_cases hnull : (sys.st.caches c).partialHead = 0
    · rw [if_pos hnull]
      refine ⟨m', ⟨hidle', hlo, hhi, ?_⟩, hm, fun _ _ => rfl⟩
      have hnull' : ((sys.masked m').st.caches c).partialHead = 0 := hnull
      simp only [kmallocEnter, hc, hnull', if_true]
      exact SlabSys.masked_setPc sys cpu _ m'
    rw [if_neg hnull]
    have hnull' : ((sys.masked m').st.caches c).partialHead ≠ 0 := hnull
    obtain ⟨s, P, i, rest, hP, hfree⟩ := h.first_partial hnull'
    obtain ⟨n, hcall, hsame⟩ := takeObject_same h.rep h.geom hP hfree hm
    have hcall' : takeObject sys.st c = ((takeObject (sys.masked m').st c).1,
        (takeObject (sys.masked m').st c).2.withMem n) := hcall
    simp only [hcall']
    refine ⟨(takeObject (sys.masked m').st c).2.mem, ⟨hidle', hlo, hhi, ?_⟩, hm.same hsame,
      fun a ha => hsame.frame ha⟩
    simp only [kmallocEnter, hc, if_neg hnull']
    rfl

theorem section_install {c : Fin 10} {s : Nat} (hpc : sys.pc cpu = .install c size s) :
    ∃ n', Follows sys ({ sys with st := (installSlab sys.st c s).2,
                                  live := ⟨(installSlab sys.st c s).1, size⟩ :: sys.live }.setPc
      cpu .idle) (.install cpu) m' n' := by
  have hpc' : (sys.masked m').pc cpu = .install c size s := SlabSys.masked_pc hpc m'
  obtain ⟨V, h, hb⟩ := hinv
  obtain ⟨_, hs, hfree⟩ := hb.at hpc'
  obtain ⟨hnot, i, rest, hcons⟩ := h.fresh_slab hs hfree
  obtain ⟨n, hcall, hsame⟩ := installSlab_same h.rep h.geom hs hnot hcons hm
  have hcall' : installSlab sys.st c s = ((installSlab (sys.masked m').st c s).1,
      (installSlab (sys.masked m').st c s).2.withMem n) := hcall
  rw [hcall']
  refine ⟨(installSlab (sys.masked m').st c s).2.mem, ⟨c, size, s, hpc', ?_⟩, hm.same hsame,
    fun a ha => hsame.frame ha⟩
  rw [SlabSys.masked_setPc]
  rfl

theorem section_release {ptr : Nat} (hpc : sys.pc cpu = .release ptr) :
    ∃ n', Follows sys ({ sys with st := (releaseObject sys.st ptr).1,
                                  live := sys.live.filter fun a => a.ptr ≠ ptr }.setPc cpu
      (match (releaseObject sys.st ptr).2 with
        | none => .idle
        | some (s, pages) => .giveBack s pages)) (.release cpu) m' n' := by
  have hpc' : (sys.masked m').pc cpu = .release ptr := SlabSys.masked_pc hpc m'
  obtain ⟨V, h, hb⟩ := hinv
  obtain ⟨a, ha, rfl⟩ := List.mem_map.mp (hb.at hpc')
  obtain ⟨s, c, i, hs, hi, hnot, hptr, _⟩ := h.owner a ha
  obtain ⟨n, hcall, hsame⟩ := releaseObject_same h.rep h.geom hs hi hnot (h.located hs hi hnot) hm
  have hcall' : releaseObject sys.st a.ptr = ((releaseObject (sys.masked m').st a.ptr).1.withMem n,
      (releaseObject (sys.masked m').st a.ptr).2) := by
    rw [hptr]
    exact hcall
  rw [← hptr] at hsame
  rw [hcall']
  refine ⟨(releaseObject (sys.masked m').st a.ptr).1.mem, ⟨a.ptr, hpc', ?_⟩, hm.same hsame,
    fun a ha => hsame.frame ha⟩
  rw [SlabSys.masked_setPc]
  generalize releaseObject (sys.masked m').st a.ptr = r
  obtain ⟨st', given⟩ := r
  cases given <;> rfl

end

/-- **Every section on slabs** is one of the run without magic numbers. -/
theorem section_follows (hl : l.Section) (hm : Masks sys.st.mem m') (hinv : Inv (sys.masked m'))
    (hstep : SlabStep sys l sys') : ∃ n', Follows sys sys' l m' n' := by
  match l with
  | .kmalloc cpu size =>
    obtain ⟨hidle, hlo, hhi, rfl⟩ := hstep
    exact section_kmalloc hm hinv hidle hlo hhi
  | .grow cpu =>
    obtain ⟨c, size, s, st1, hpc, hcall, rfl⟩ := hstep
    have hpc' : (sys.masked m').pc cpu = .grow c size := SlabSys.masked_pc hpc m'
    obtain ⟨V, h, _⟩ := hinv
    have hwf : Wf (sys.masked m').st.pmm := h.wf
    have hmasked : slabNew ((sys.masked m').st.withMem sys.st.mem) c = some (s, st1) := hcall
    obtain ⟨st2, hcall', hst, hcases⟩ := slabNew_same hwf h.hhdm hmasked
    rcases hcases with ⟨rfl, rfl, rfl⟩ | ⟨hne, hsame⟩
    · refine ⟨m', ⟨c, size, 0, _, hpc', hcall', ?_⟩, hm, fun _ _ => rfl⟩
      rw [if_pos rfl, if_pos rfl, SlabSys.masked_setPc]
      rfl
    refine ⟨st2.mem, ⟨c, size, s, st2, hpc', hcall', ?_⟩, ?_, ?_⟩
    · rw [if_neg hne, if_neg hne, SlabSys.masked_setPc, hst]
      rfl
    · rw [if_neg hne]
      exact hm.same hsame
    rw [if_neg hne]
    intro a ha
    refine hsame.frame fun hin => ha ?_
    obtain ⟨x, hx, hxa⟩ := hin
    rw [List.mem_singleton] at hx
    exact ⟨x, by rw [hx]; exact .head _, hxa⟩
  | .install cpu =>
    obtain ⟨c, size, s, hpc, rfl⟩ := hstep
    exact section_install hm hinv hpc
  | .release cpu =>
    obtain ⟨ptr, hpc, rfl⟩ := hstep
    exact section_release hm hinv hpc
  | .giveBack cpu =>
    obtain ⟨s, pages, pmm, hpc, hcall, rfl⟩ := hstep
    have hpc' : (sys.masked m').pc cpu = .giveBack s pages := SlabSys.masked_pc hpc m'
    refine ⟨m', ⟨s, pages, pmm, hpc', hcall, ?_⟩, hm, fun _ _ => rfl⟩
    rw [SlabSys.masked_setPc]
    rfl
  | .kfree _ _ => exact absurd hl id
  | .store _ _ _ => exact absurd hl id
  | .other _ _ => exact absurd hl id

/-- The test of `kfree` is right where no magic numbers are. -/
theorem kfree_follows {a : Obj} (hinv : Inv (sys.masked m')) (hidle : sys.pc cpu = .idle)
    (ha : a ∈ sys.live) (hnone : ∀ k, sys.pc k ≠ .release a.ptr ∧ sys.pc k ≠ .large a.ptr) :
    SlabStep (sys.masked m') (.kfree cpu a)
      ((sys.setPc cpu (kfreeEnter sys.st.mem a.ptr)).masked m') := by
  obtain ⟨V, h, _⟩ := hinv
  refine ⟨SlabSys.masked_pc hidle m', ha, ?_, ?_⟩
  · intro k hk
    have hk' : (sys.pc k).settled = .release a.ptr := hk
    obtain ⟨h1, h2⟩ := hnone k
    generalize sys.pc k = p at hk' h1 h2
    cases p with
    | release q => exact h1 hk'
    | large q =>
      simp only [Pc.settled, Pc.release.injEq] at hk'
      exact h2 (by rw [hk'])
    | idle => cases hk'
    | grow d size => cases hk'
    | install d size t => cases hk'
    | giveBack t pages => cases hk'
  · rw [SlabSys.masked_setPc, h.not_large ha, if_neg Bool.false_ne_true]
    unfold kfreeEnter
    split <;> rfl

/-! ## Section 4: Pages -/

theorem takeObject_pmm (st : SlabState) (c : Fin 10) : (takeObject st c).2.pmm = st.pmm := by
  unfold takeObject
  simp only
  split <;> rfl

theorem releaseObject_pmm (st : SlabState) (ptr : Nat) : (releaseObject st ptr).1.pmm = st.pmm := by
  unfold releaseObject
  simp only
  split
  · rfl
  · split <;> rfl

/-- What a section does to pages: it takes free ones for a new slab, or gives those of a
    slab back. -/
structure PageMove (sys sys' : SlabSys Cpu) : Prop where
  region : SameRegion sys.st.pmm sys'.st.pmm
  freed  : ∀ f ∈ freeFrames sys'.st.pmm, f ∈ freeFrames sys.st.pmm ∨
    InSlabs sys.slabs (f * pageSize + sys.st.pmm.hhdmOffset)
  taken  : ∀ a, InSlabs sys'.slabs a → InSlabs sys.slabs a ∨
    (sys.st.pmm.hhdmOffset ≤ a ∧ (a - sys.st.pmm.hhdmOffset) / pageSize ∈ freeFrames sys.st.pmm)

omit [DecidableEq Cpu] in
theorem PageMove.same (hpmm : sys'.st.pmm = sys.st.pmm) (hslabs : sys'.slabs = sys.slabs) :
    PageMove sys sys' := by
  refine ⟨?_, ?_, ?_⟩
  · rw [hpmm]
    exact SameRegion.refl _
  · rw [hpmm]
    exact fun f hf => .inl hf
  · rw [hslabs]
    exact fun a ha => .inl ha

theorem section_pages (hl : l.Section) (hinv : Inv sys) (hstep : SlabStep sys l sys') :
    PageMove sys sys' := by
  match l with
  | .kmalloc cpu size =>
    obtain ⟨_, _, _, rfl⟩ := hstep
    unfold kmallocEnter
    cases cacheFor size with
    | none => exact PageMove.same rfl rfl
    | some c =>
      simp only
      split
      · exact PageMove.same rfl rfl
      · exact PageMove.same rfl rfl
      next heq =>
      split at heq
      · cases heq
      · cases heq
        exact PageMove.same (takeObject_pmm _ _) rfl
  | .grow cpu =>
    obtain ⟨c, size, s, st1, _, hcall, rfl⟩ := hstep
    obtain ⟨V, h, _⟩ := hinv
    rcases slabNew_cases h.wf hcall with ⟨rfl, hall⟩ | ⟨hne, pmm, hheld, htaken, hall⟩
    · cases hcall.symm.trans (hall sys.st.mem)
      exact PageMove.same rfl rfl
    cases hcall.symm.trans (hall sys.st.mem)
    rw [if_neg hne]
    refine ⟨htaken.region, ?_, ?_⟩
    · intro f hf
      left
      rw [htaken.frames]
      exact mem_add.mpr (.inr hf)
    intro a ha
    obtain ⟨x, hx, hxa⟩ := ha
    rcases List.mem_cons.mp hx with rfl | hx
    · right
      have hlo : s ≤ a := hxa.1
      have habove : sys.st.pmm.hhdmOffset ≤ s := htaken.region.hhdmOffset ▸ hheld.above
      refine ⟨by omega, ?_⟩
      rw [htaken.frames]
      exact mem_add.mpr (.inl ((slabBlock_mem_frames habove htaken.aligned).mp hxa).2)
    · exact .inl ⟨x, hx, hxa⟩
  | .install cpu =>
    obtain ⟨c, size, s, _, rfl⟩ := hstep
    exact PageMove.same (takeObject_pmm _ _) rfl
  | .release cpu =>
    obtain ⟨ptr, _, rfl⟩ := hstep
    exact PageMove.same (releaseObject_pmm _ _) rfl
  | .giveBack cpu =>
    obtain ⟨s, pages, pmm, hpc, hcall, rfl⟩ := hstep
    obtain ⟨V, h, hb⟩ := hinv
    obtain ⟨c, hs, hlen, rfl⟩ := hb.at hpc
    obtain ⟨pmm', hcall', hr, hfreed, _⟩ := giveBack_spec h hs hlen
    obtain rfl : pmm' = pmm := Option.some.inj (hcall'.symm.trans hcall)
    refine ⟨hr, ?_, ?_⟩
    · intro f hf
      rcases hfreed f hf with hf | hf
      · exact .inr ⟨(s, c), hs, (h.held _ hs).addr_of_frame hf⟩
      · exact .inl hf
    · intro a ha
      obtain ⟨x, hx, hxa⟩ := ha
      exact .inl ⟨x, (List.mem_filter.mp hx).1, hxa⟩
  | .kfree _ _ => exact absurd hl id
  | .store _ _ _ => exact absurd hl id
  | .other _ _ => exact absurd hl id

/-! ## Section 5: Large allocations -/

/-- Where a large allocation lies: in the `vmalloc` area, or on a block of pages that is
    taken. -/
structure LargeOk (pmm : PmmBuddyState) (b : Large) : Prop where
  nonempty : b.pages ≠ 0 ∧ b.pages < 2 ^ 52
  area     : vmallocOwns b.hdr → b.hdr + b.len ≤ vmallocEnd
  block    : ¬ vmallocOwns b.hdr → ∃ order, pagesToOrder b.pages = some (some order) ∧
    pmm.hhdmOffset ≤ b.hdr ∧ PmmBlock.Aligned ⟨b.hdr - pmm.hhdmOffset, order⟩ ∧
    ∀ f ∈ PmmBlock.frames ⟨b.hdr - pmm.hhdmOffset, order⟩,
      (freeMinPhys / pageSize ≤ f ∧ f < pmm.memEnd / pageSize) ∧ f ∉ freeFrames pmm

theorem Large.len_block (hvm : ¬ vmallocOwns b.hdr)
    (horder : pagesToOrder b.pages = some (some order)) : b.len = pageSize * 2 ^ order := by
  unfold Large.len
  rw [if_neg hvm, horder]
  rfl

/-- The addresses of a block are those of its frames. -/
theorem Large.has_iff (hvm : ¬ vmallocOwns b.hdr)
    (horder : pagesToOrder b.pages = some (some order)) {offset : Nat} (habove : offset ≤ b.hdr)
    (hal : PmmBlock.Aligned ⟨b.hdr - offset, order⟩) : b.Has a ↔ offset ≤ a ∧
      (a - offset) / pageSize ∈ PmmBlock.frames ⟨b.hdr - offset, order⟩ := by
  unfold Large.Has
  rw [Large.len_block hvm horder]
  exact hal.mem_frames_iff habove

theorem LargeOk.len_ge (h : LargeOk pmm b) : pageSize ≤ b.len := by
  unfold Large.len
  split
  · exact Nat.le_mul_of_pos_left _ (Nat.pos_of_ne_zero h.nonempty.1)
  · exact Nat.le_mul_of_pos_right _ (Nat.two_pow_pos _)

/-- The state of the large allocations: their headers are intact, and they overlap neither
    each other nor slabs. -/
structure LargeInv (st : SlabState) (slabs : List (Nat × Fin 10)) (larges : List Large) :
    Prop where
  hdr   : ∀ b ∈ larges, st.mem b.hdr = largeAllocMagic ∧ st.mem (b.hdr + 8) = b.pages
  ok    : ∀ b ∈ larges, LargeOk st.pmm b
  apart : larges.Pairwise fun b b' => ∀ a, b.Has a → ¬ b'.Has a
  slabs : ∀ b ∈ larges, ∀ a, b.Has a → ¬ InSlabs slabs a
  area  : st.pmm.hhdmOffset + st.pmm.memEnd ≤ vmallocBase

section LargeInv

variable {st st' : SlabState} {slabs slabs' : List (Nat × Fin 10)} {larges : List Large} {b : Large}
  {a : Nat}

/-- A frame that is free is below the `vmalloc` area. -/
theorem free_below (hwf : Wf st.pmm) (harea : st.pmm.hhdmOffset + st.pmm.memEnd ≤ vmallocBase)
    (hf : (a - st.pmm.hhdmOffset) / pageSize < st.pmm.memEnd / pageSize) : a < vmallocBase := by
  obtain ⟨q, hq⟩ := hwf.memEnd_aligned
  unfold pageSize at *
  omega

section

variable (h : LargeInv st slabs larges)
include h

/-- Pages of large allocations are not free. -/
theorem LargeInv.not_free (hwf : Wf st.pmm) (hb : b ∈ larges)
    (ha : b.Has a) : (a - st.pmm.hhdmOffset) / pageSize ∉ freeFrames st.pmm := by
  intro hfree
  by_cases hvm : vmallocOwns b.hdr
  · have hbelow := free_below hwf h.area (hwf.range _ hfree).2
    have hlo := ha.1
    have hbase := hvm.1
    omega
  · obtain ⟨order, horder, habove, hal, hframes⟩ := (h.ok b hb).block hvm
    exact (hframes _ ((Large.has_iff hvm horder habove hal).mp ha).2).2 hfree

/-- With an address of a block its page is in the allocation. -/
theorem LargeInv.has_page (hb : b ∈ larges) (hvm : ¬ vmallocOwns b.hdr) (ha : b.Has a) :
    b.Has ((a - st.pmm.hhdmOffset) / pageSize * pageSize + st.pmm.hhdmOffset) := by
  obtain ⟨order, horder, habove, hal, _⟩ := (h.ok b hb).block hvm
  rw [Large.has_iff hvm horder habove hal] at ha ⊢
  rw [Nat.add_sub_cancel, Nat.mul_div_cancel _ pageSize_pos]
  exact ⟨by omega, ha.2⟩

/-- Whatever leaves the memory and the pages of large allocations alone. -/
theorem LargeInv.keep (hr : SameRegion st.pmm st'.pmm)
    (hmem : ∀ b ∈ larges, ∀ a, b.Has a → st'.mem a = st.mem a)
    (hfree : ∀ b ∈ larges, ¬ vmallocOwns b.hdr → ∀ a, b.Has a →
      (a - st.pmm.hhdmOffset) / pageSize ∉ freeFrames st'.pmm)
    (hslabs : ∀ b ∈ larges, ∀ a, b.Has a → ¬ InSlabs slabs' a) : LargeInv st' slabs' larges := by
  have hpage : pageSize = 4096 := rfl
  refine ⟨?_, ?_, h.apart, hslabs, ?_⟩
  · intro b hb
    have hlen := (h.ok b hb).len_ge
    rw [hmem b hb _ ⟨by omega, by omega⟩, hmem b hb _ ⟨by omega, by omega⟩]
    exact h.hdr b hb
  · intro b hb
    have hok := h.ok b hb
    refine ⟨hok.nonempty, hok.area, ?_⟩
    intro hvm
    obtain ⟨order, horder, habove, hal, hframes⟩ := hok.block hvm
    rw [hr.hhdmOffset, hr.memEnd]
    refine ⟨order, horder, habove, hal, ?_⟩
    intro f hf
    refine ⟨(hframes f hf).1, ?_⟩
    have hhas : b.Has (f * pageSize + st.pmm.hhdmOffset) := by
      rw [Large.has_iff hvm horder habove hal, Nat.add_sub_cancel,
        Nat.mul_div_cancel _ pageSize_pos]
      exact ⟨by omega, hf⟩
    have hnot := hfree b hb hvm _ hhas
    rwa [Nat.add_sub_cancel, Nat.mul_div_cancel _ pageSize_pos] at hnot
  · rw [hr.hhdmOffset, hr.memEnd]
    exact h.area

/-- **A new large allocation.** -/
theorem LargeInv.add (hhdr : st.mem b.hdr = largeAllocMagic ∧ st.mem (b.hdr + 8) = b.pages)
    (hok : LargeOk st.pmm b) (hapart : ∀ b' ∈ larges, ∀ a, b.Has a → ¬ b'.Has a)
    (hslabs : ∀ a, b.Has a → ¬ InSlabs slabs a) : LargeInv st slabs (b :: larges) := by
  refine ⟨?_, ?_, pairwise_cons.mpr ⟨hapart, h.apart⟩, ?_, h.area⟩
  · exact List.forall_mem_cons.mpr ⟨hhdr, h.hdr⟩
  · exact List.forall_mem_cons.mpr ⟨hok, h.ok⟩
  · exact List.forall_mem_cons.mpr ⟨hslabs, h.slabs⟩

theorem LargeInv.erase (b : Large) : LargeInv st slabs (larges.erase b) where
  hdr b' hb' := h.hdr b' (List.mem_of_mem_erase hb')
  ok b' hb' := h.ok b' (List.mem_of_mem_erase hb')
  apart := List.Pairwise.sublist erase_sublist h.apart
  slabs b' hb' := h.slabs b' (List.mem_of_mem_erase hb')
  area := h.area

/-- Two large allocations with a common address are one. -/
theorem LargeInv.apart_of_erase (hb : b ∈ larges) {b' : Large}
    (hb' : b' ∈ larges.erase b) (ha : b.Has a) : ¬ b'.Has a := by
  have : Std.Symm fun b b' : Large => ∀ a, b.Has a → ¬ b'.Has a :=
    ⟨fun b b' hbb a ha hb => hbb a hb ha⟩
  have hperm := (perm_cons_erase hb).pairwise_iff (fun {x y} hxy => this.symm x y hxy)
  exact (pairwise_cons.mp (hperm.mp h.apart)).1 b' hb' a ha

end

end LargeInv

/-! ## Section 6: The invariant of the heap -/

/-- The slabs are as in some run of the slab allocator in which nobody stores the magic
    number, up to stored magic numbers; and the large allocations are in order. -/
structure HeapInv (h : HeapSys Cpu) : Prop where
  run    : ∃ m', Masks h.mem m' ∧ (slabSystem Cpu).Reachable (h.sys.masked m')
  larges : LargeInv h.sys.st h.sys.slabs h.larges

omit [DecidableEq Cpu] in
/-- Pages of slabs are not free. -/
theorem Inv.slab_taken (h : Inv sys) (ha : InSlabs sys.slabs a) :
    (a - sys.st.pmm.hhdmOffset) / pageSize ∉ freeFrames sys.st.pmm := by
  obtain ⟨V, hbooks, _⟩ := h
  obtain ⟨x, hx, hxa⟩ := ha
  have hheld := hbooks.held x hx
  exact hheld.taken _ (hheld.mem_frames hxa)

/-- **The rest of the kernel.** What leaves memory and pages of slabs alone is a step of
    the run without magic numbers. -/
theorem reachable_other (hm : Masks sys.st.mem m')
    (hr : (slabSystem Cpu).Reachable (sys.masked m')) (hwf : Wf pmm)
    (hregion : SameRegion sys.st.pmm pmm) (hmem : ∀ a, InSlabs sys.slabs a → mem a = sys.st.mem a)
    (hfree : ∀ a, InSlabs sys.slabs a → (a - sys.st.pmm.hhdmOffset) / pageSize ∉ freeFrames pmm) :
    ∃ n', Masks mem n' ∧
      (slabSystem Cpu).Reachable ({ sys with st := { sys.st with mem, pmm } }.masked n') := by
  classical
  -- slabs keep their masked words, the rest is not masked
  refine ⟨fun a => if InSlabs sys.slabs a then m' a else mem a, ?_, ?_⟩
  · intro a
    by_cases ha : InSlabs sys.slabs a
    · simp only [if_pos ha, hmem a ha]
      exact hm a
    · simp only [if_neg ha]
      exact .inl trivial
  refine .step (.other _ pmm) hr ⟨hwf, hregion, ?_, rfl⟩
  intro x hx a ha
  have hin : InSlabs sys.slabs a := ⟨x, hx, ha⟩
  refine ⟨if_pos hin, ?_⟩
  rw [hregion.hhdmOffset]
  exact hfree a hin

theorem writeLargeHdr_frame {m : Mem} {hdr pages : Nat} (hpages : pages ≠ 0)
    (ha : ¬ (hdr ≤ a ∧ a < hdr + pages * pageSize)) :
    writeLargeHdr (clear m hdr (pages * pageSize)) hdr pages a = m a := by
  have hlen : pageSize ≤ pages * pageSize := Nat.le_mul_of_pos_left _ (Nat.pos_of_ne_zero hpages)
  have hpage : pageSize = 4096 := rfl
  unfold writeLargeHdr
  rw [write_of_ne (by omega), write_of_ne (by omega)]
  exact if_neg ha

theorem writeLargeHdr_words (m : Mem) (hdr pages : Nat) :
    writeLargeHdr m hdr pages hdr = largeAllocMagic ∧
      writeLargeHdr m hdr pages (hdr + 8) = pages := by
  unfold writeLargeHdr
  rw [write_of_ne (by omega), write_self, write_self]
  exact ⟨rfl, rfl⟩

theorem largePages_lt (size : Nat) : largePages size < 2 ^ 52 := by
  unfold largePages u64 pageSize
  omega

/-! ### Steps on slabs -/

section Steps

variable {h h' : HeapSys Cpu}

theorem HeapInv.inv (hinv : HeapInv h) : ∃ m', Masks h.mem m' ∧ Inv (h.sys.masked m') := by
  obtain ⟨m', hm, hr⟩ := hinv.run
  exact ⟨m', hm, inv_reachable hr⟩

theorem HeapInv.wf (hinv : HeapInv h) : Wf h.sys.st.pmm := by
  obtain ⟨m', _, V, hbooks, _⟩ := hinv.inv
  exact hbooks.wf

theorem HeapInv.slab_taken (hinv : HeapInv h) {a : Nat} (ha : InSlabs h.sys.slabs a) :
    (a - h.sys.st.pmm.hhdmOffset) / pageSize ∉ freeFrames h.sys.st.pmm := by
  obtain ⟨m', _, hinv'⟩ := hinv.inv
  exact hinv'.slab_taken ha

variable {a : Obj} {addr v pages order size : Nat} {pmm : PmmBuddyState} {b : Large}

section

variable (hinv : HeapInv h)
include hinv

/-- Objects of slabs lie in slabs. -/
theorem HeapInv.object_inSlabs (ha : a ∈ h.sys.live) (hlo : a.ptr ≤ addr)
    (hhi : addr < a.ptr + a.size) : InSlabs h.sys.slabs addr := by
  obtain ⟨m', _, V, hbooks, _⟩ := hinv.inv
  obtain ⟨s, c, i, hs, hi, _, hptr, hsize⟩ := hbooks.owner a ha
  have hb := slotAddr_bounds (s := s) hi
  have hfit := (classOk c).slots_fit
  refine ⟨(s, c), hs, ?_, ?_⟩ <;> simp only <;> omega

theorem heapInv_slab {l : SlabLabel Cpu} {sys' : SlabSys Cpu} (hl : l.Section)
    (hstep : SlabStep h.sys l sys') : HeapInv { h with sys := sys' } := by
  obtain ⟨m', hm, hr⟩ := hinv.run
  have hslab := inv_reachable hr
  obtain ⟨n', hfollow⟩ := section_follows hl hm hslab hstep
  have hpages : PageMove (h.sys.masked m') (sys'.masked n') := section_pages hl hslab hfollow.step
  -- a slab never gets an address of a large allocation
  have hnot : ∀ b ∈ h.larges, ∀ a, b.Has a → ¬ InSlabs sys'.slabs a := by
    intro b hb a ha hin
    rcases hpages.taken a hin with hold | ⟨_, hfree⟩
    · exact hinv.larges.slabs b hb a ha hold
    · exact hinv.larges.not_free hinv.wf hb ha hfree
  refine ⟨⟨n', hfollow.masks, .step l hr hfollow.step⟩, ?_⟩
  refine hinv.larges.keep hpages.region ?_ ?_ hnot
  · intro b hb a ha
    exact hfollow.frame a (hnot b hb a ha)
  intro b hb hvm a ha hfree
  rcases hpages.freed _ hfree with hold | hslabs
  · exact hinv.larges.not_free hinv.wf hb ha hold
  · exact hinv.larges.slabs b hb _ (hinv.larges.has_page hb hvm ha) hslabs

theorem heapInv_kfree (hidle : h.sys.pc cpu = .idle) (ha : a ∈ h.sys.live)
    (hnone : ∀ k, h.sys.pc k ≠ .release a.ptr ∧ h.sys.pc k ≠ .large a.ptr) :
    HeapInv { h with sys := h.sys.setPc cpu (kfreeEnter h.mem a.ptr) } := by
  obtain ⟨m', hm, hr⟩ := hinv.run
  exact ⟨⟨m', hm, .step (.kfree cpu a) hr (kfree_follows (inv_reachable hr) hidle ha hnone)⟩,
    hinv.larges⟩

/-- A stored magic number is a 1 in the run without. -/
theorem heapInv_store (ha : a ∈ h.sys.live) (hlo : a.ptr ≤ addr) (hhi : addr < a.ptr + a.size)
    (h8 : 8 ∣ addr) : HeapInv (h.setMem (write h.mem addr v)) := by
  obtain ⟨m', hm, hr⟩ := hinv.run
  have hin := hinv.object_inSlabs ha hlo hhi
  refine ⟨⟨write m' addr (if v = largeAllocMagic then 1 else v), ?_, ?_⟩, ?_⟩
  · show Masks (write h.mem addr v) _
    intro a'
    by_cases heq : a' = addr
    · rw [heq, write_self, write_self]
      by_cases hv : v = largeAllocMagic
      · rw [if_pos hv]
        exact .inr ⟨hv, rfl⟩
      · rw [if_neg hv]
        exact .inl rfl
    · rw [write_of_ne heq, write_of_ne heq]
      exact hm a'
  · refine .step (.store a addr _) hr ⟨ha, hlo, hhi, h8, ?_, rfl⟩
    split
    · decide
    · assumption
  refine hinv.larges.keep (SameRegion.refl _) ?_ ?_ hinv.larges.slabs
  · intro b hb a' ha'
    show write h.mem addr v a' = h.mem a'
    refine write_of_ne ?_
    rintro rfl
    exact hinv.larges.slabs b hb _ ha' hin
  · intro b hb _ a' ha'
    exact hinv.larges.not_free hinv.wf hb ha'

/-! ### Steps on large allocations -/

/-- What a step must leave alone for all but one large allocation. -/
theorem HeapInv.change {larges : List Large} (hwf : Wf pmm)
    (hregion : SameRegion h.sys.st.pmm pmm) (hmem : ∀ a, InSlabs h.sys.slabs a → mem a = h.mem a)
    (hfree : ∀ a, InSlabs h.sys.slabs a → (a - h.sys.st.pmm.hhdmOffset) / pageSize ∉ freeFrames pmm)
    (hlarges : LargeInv { h.sys.st with mem, pmm } h.sys.slabs larges) :
    HeapInv { (h.setPmm pmm).setMem mem with larges } := by
  obtain ⟨m', hm, hr⟩ := hinv.run
  have hrun := reachable_other hm hr hwf hregion hmem hfree
  exact ⟨hrun, hlarges⟩

/-- A new large allocation where no slab and no other allocation is. -/
theorem HeapInv.addLarge (hwf : Wf pmm) (hregion : SameRegion h.sys.st.pmm pmm)
    (hfree : ∀ f, f ∉ freeFrames h.sys.st.pmm → f ∉ freeFrames pmm)
    (hapart : ∀ b' ∈ h.larges, ∀ a, b.Has a → ¬ b'.Has a)
    (hslabs : ∀ a, b.Has a → ¬ InSlabs h.sys.slabs a) (hframe : ∀ a, ¬ b.Has a → mem a = h.mem a)
    (hhdr : mem b.hdr = largeAllocMagic ∧ mem (b.hdr + 8) = b.pages) (hok : LargeOk pmm b) :
    HeapInv { (h.setPmm pmm).setMem mem with larges := b :: h.larges } := by
  have hold : LargeInv { h.sys.st with mem, pmm } h.sys.slabs h.larges := by
    refine hinv.larges.keep hregion ?_ ?_ hinv.larges.slabs
    · exact fun b' hb' a ha => hframe a fun hin => hapart b' hb' a hin ha
    · exact fun b' hb' _ a ha => hfree _ (hinv.larges.not_free hinv.wf hb' ha)
  refine hinv.change hwf hregion ?_ ?_ (hold.add hhdr hok hapart hslabs)
  · exact fun a ha => hframe a fun hin => hslabs a hin ha
  · exact fun a ha => hfree _ (hinv.slab_taken ha)

end

theorem pagesToOrderLoop_cap : ∀ {fuel cap o : Nat}, cap ≤ 2 ^ o →
    pagesToOrderLoop pages fuel cap o = some order → pages ≤ 2 ^ order := by
  intro fuel
  induction fuel with
  | zero =>
    intro cap o _ h
    cases h
  | succ fuel ih =>
    intro cap o hcap h
    unfold pagesToOrderLoop at h
    by_cases hlt : cap < pages
    · rw [if_pos hlt] at h
      refine ih ?_ h
      have hwrap : u64 (cap * 2) ≤ cap * 2 := Nat.mod_le _ _
      omega
    · rw [if_neg hlt] at h
      cases h
      omega

theorem pagesToOrder_cap (h : pagesToOrder pages = some (some order)) : pages ≤ 2 ^ order := by
  unfold pagesToOrder at h
  rw [Option.map_eq_some_iff] at h
  obtain ⟨o, hloop, ho⟩ := h
  have hcap := pagesToOrderLoop_cap (by decide) hloop
  split at ho
  · cases ho
  · cases ho
    exact hcap

section

variable (hinv : HeapInv h)
include hinv

theorem heapInv_kmallocLarge {p : Nat}
    (hcall : pmmAllocZero h.sys.st.pmm (largePages size) = some (p, pmm)) :
    HeapInv (if p = 0 then h.setPmm pmm
      else { (h.setPmm pmm).setMem (writeLargeHdr (clear h.mem p (largePages size * pageSize)) p
          (largePages size)) with
        larges := ⟨p, largePages size, size⟩ :: h.larges }) := by
  have hwf := hinv.wf
  obtain _ | ⟨phys, order, hpages, horder, hmin, htaken⟩ := (pmmAllocZero_call hwf hcall).result hwf
  · exact hinv
  have hmin' : 0 < freeMinPhys := by decide
  rw [if_neg (by omega)]
  generalize hb : Large.mk (phys + h.sys.st.pmm.hhdmOffset) (largePages size) size = b
  have hhdr : b.hdr = phys + h.sys.st.pmm.hhdmOffset := by rw [← hb]
  have hbp : b.pages = largePages size := by rw [← hb]
  have habove : h.sys.st.pmm.hhdmOffset ≤ b.hdr := by omega
  have hphys : b.hdr - h.sys.st.pmm.hhdmOffset = phys := by omega
  have hrange := htaken.phys_range hwf
  have hal : PmmBlock.Aligned ⟨b.hdr - h.sys.st.pmm.hhdmOffset, order⟩ := by
    rw [hphys]
    exact htaken.aligned
  have hvm : ¬ vmallocOwns b.hdr := by
    intro hvm
    have hfirst := (hrange _ (PmmBlock.first_mem_frames ⟨phys, order⟩)).2
    have hbelow := free_below (a := b.hdr) hwf hinv.larges.area (by rw [hphys]; exact hfirst)
    exact absurd hvm.1 (by omega)
  have hhas : ∀ a, b.Has a ↔ h.sys.st.pmm.hhdmOffset ≤ a ∧
      (a - h.sys.st.pmm.hhdmOffset) / pageSize ∈ PmmBlock.frames ⟨phys, order⟩ := by
    intro a
    rw [Large.has_iff hvm (by rw [hbp]; exact horder) habove hal, hphys]
  have hwasFree : ∀ a, b.Has a →
      (a - h.sys.st.pmm.hhdmOffset) / pageSize ∈ freeFrames h.sys.st.pmm := by
    intro a ha
    rw [htaken.frames]
    exact mem_add.mpr (.inl ((hhas a).mp ha).2)
  have hstays : ∀ f, f ∉ freeFrames h.sys.st.pmm → f ∉ freeFrames pmm := by
    intro f hf hf'
    rw [htaken.frames] at hf
    exact hf (mem_add.mpr (.inr hf'))
  -- the memory changes inside the new allocation only
  have hframe : ∀ a, ¬ b.Has a → writeLargeHdr (clear h.mem (phys + h.sys.st.pmm.hhdmOffset)
      (largePages size * pageSize)) (phys + h.sys.st.pmm.hhdmOffset) (largePages size) a =
      h.mem a := by
    intro a ha
    refine writeLargeHdr_frame hpages fun hin => ha ⟨by omega, ?_⟩
    have hcap : largePages size * pageSize ≤ pageSize * 2 ^ order := by
      rw [Nat.mul_comm]
      exact Nat.mul_le_mul_left _ (pagesToOrder_cap horder)
    rw [Large.len_block hvm (by rw [hbp]; exact horder)]
    omega
  refine hinv.addLarge htaken.wf htaken.region hstays ?_ ?_ hframe ?_ ?_
  · intro b' hb' a ha ha'
    exact hinv.larges.not_free hwf hb' ha' (hwasFree a ha)
  · intro a ha hin
    exact hinv.slab_taken hin (hwasFree a ha)
  · rw [hhdr, hbp]
    exact writeLargeHdr_words _ _ _
  refine ⟨by rw [hbp]; exact ⟨hpages, largePages_lt size⟩, fun hin => absurd hin hvm, ?_⟩
  intro _
  simp only [htaken.region.hhdmOffset, htaken.region.memEnd, hphys]
  refine ⟨order, by rw [hbp]; exact horder, habove, htaken.aligned, ?_⟩
  intro f hf
  refine ⟨hrange f hf, ?_⟩
  have hnodup := hwf.nodup
  rw [htaken.frames, nodup_add] at hnodup
  exact Multiset.disjoint_left.mp hnodup.2.2 hf

theorem heapInv_vmallocLarge {base : Nat} (hmin : vmallocMinPages ≤ largePages size)
    (hlo : vmallocBase ≤ base) (hhi : base + largePages size * pageSize ≤ vmallocEnd)
    (hunused : ∀ b ∈ h.larges, vmallocOwns b.hdr → ∀ a, b.Has a →
      ¬ (base ≤ a ∧ a < base + largePages size * pageSize)) :
    HeapInv { h.setMem (writeLargeHdr (clear h.mem base (largePages size * pageSize)) base
        (largePages size)) with
      larges := ⟨base, largePages size, size⟩ :: h.larges } := by
  have hwf := hinv.wf
  have hpages : largePages size ≠ 0 := by
    have hpos : 0 < vmallocMinPages := by decide
    omega
  have hpos : 0 < largePages size * pageSize := Nat.mul_pos (Nat.pos_of_ne_zero hpages) pageSize_pos
  have hvm : vmallocOwns base := ⟨hlo, by omega⟩
  generalize hb : Large.mk base (largePages size) size = b
  have hhas : ∀ a, b.Has a ↔ base ≤ a ∧ a < base + largePages size * pageSize := by
    intro a
    rw [← hb]
    unfold Large.Has Large.len
    simp only [if_pos hvm]
  -- the area has no page of the direct map, where slabs and the other allocations are
  have hslabs : ∀ a, b.Has a → ¬ InSlabs h.sys.slabs a := by
    rintro a ha ⟨x, hx, hxa⟩
    obtain ⟨m', _, V, hbooks, _⟩ := hinv.inv
    have hheld := hbooks.held x hx
    have hbelow : a < vmallocBase :=
      free_below hwf hinv.larges.area (hheld.range _ (hheld.mem_frames hxa)).2
    have := ((hhas a).mp ha).1
    omega
  have hapart : ∀ b' ∈ h.larges, ∀ a, b.Has a → ¬ b'.Has a := by
    intro b' hb' a ha ha'
    by_cases hvm' : vmallocOwns b'.hdr
    · exact hunused b' hb' hvm' a ha' ((hhas a).mp ha)
    obtain ⟨order, horder, habove, hal, hframes⟩ := (hinv.larges.ok b' hb').block hvm'
    rw [Large.has_iff hvm' horder habove hal] at ha'
    have hbelow := free_below hwf hinv.larges.area (hframes _ ha'.2).1.2
    have := ((hhas a).mp ha).1
    omega
  have hframe : ∀ a, ¬ b.Has a → writeLargeHdr (clear h.mem base (largePages size * pageSize)) base
      (largePages size) a = h.mem a := by
    intro a ha
    exact writeLargeHdr_frame hpages fun hin => ha ((hhas a).mpr hin)
  refine hinv.addLarge hwf (SameRegion.refl _) (fun _ hf => hf) hapart hslabs hframe ?_ ?_
  · rw [← hb]
    exact writeLargeHdr_words _ _ _
  rw [← hb]
  refine ⟨⟨hpages, largePages_lt size⟩, ?_, fun hnot => absurd hvm hnot⟩
  intro _
  unfold Large.len
  simp only [if_pos hvm]
  exact hhi

/-- A store behind the header of a large allocation. -/
theorem heapInv_storeLarge (hb : b ∈ h.larges) (hlo : b.ptr ≤ addr) (hhas : b.Has addr) :
    HeapInv (h.setMem (write h.mem addr v)) := by
  have hslab : ∀ a, InSlabs h.sys.slabs a → a ≠ addr := by
    rintro a ha rfl
    exact hinv.larges.slabs b hb _ hhas ha
  refine hinv.change hinv.wf (SameRegion.refl _) ?_ ?_ ⟨?_, hinv.larges.ok, hinv.larges.apart,
    hinv.larges.slabs, hinv.larges.area⟩
  · intro a ha
    exact write_of_ne (hslab a ha)
  · intro a ha
    exact hinv.slab_taken ha
  -- the headers of all allocations stay
  intro b' hb'
  have hpage : pageSize = 4096 := rfl
  have hlen := (hinv.larges.ok b' hb').len_ge
  have hne : ∀ k, k < largeHdrSize → b'.hdr + k ≠ addr := by
    intro k hk heq
    by_cases hsame : b' = b
    · rw [hsame] at heq
      unfold Large.ptr at hlo
      omega
    · have hin : b' ∈ h.larges.erase b := (List.mem_erase_of_ne hsame).mpr hb'
      have h16 : largeHdrSize = 16 := rfl
      exact hinv.larges.apart_of_erase hb hin hhas ⟨by omega, by omega⟩
  have h0 : write h.mem addr v b'.hdr = h.mem b'.hdr := write_of_ne (hne 0 (by decide))
  have h8 : write h.mem addr v (b'.hdr + 8) = h.mem (b'.hdr + 8) := write_of_ne (hne 8 (by decide))
  show write h.mem addr v b'.hdr = _ ∧ write h.mem addr v (b'.hdr + 8) = _
  rw [h0, h8]
  exact hinv.larges.hdr b' hb'

/-- The pages that `kfree` gives back with a large allocation. -/
theorem LargeInv.freed (hb : b ∈ h.larges)
    (hcall : if vmallocOwns b.hdr then pmm = h.sys.st.pmm
      else pmmFree h.sys.st.pmm b.hdr (h.mem (b.hdr + 8)) = some pmm) :
    Wf pmm ∧ SameRegion h.sys.st.pmm pmm ∧ ∀ a, h.sys.st.pmm.hhdmOffset ≤ a →
      (a - h.sys.st.pmm.hhdmOffset) / pageSize ∈ freeFrames pmm →
      b.Has a ∨ (a - h.sys.st.pmm.hhdmOffset) / pageSize ∈ freeFrames h.sys.st.pmm := by
  by_cases hvm : vmallocOwns b.hdr
  · rw [if_pos hvm] at hcall
    rw [hcall]
    exact ⟨hinv.wf, SameRegion.refl _, fun a _ hf => .inr hf⟩
  rw [if_neg hvm] at hcall
  obtain ⟨order, horder, habove, hal, hframes⟩ := (hinv.larges.ok b hb).block hvm
  have hpages : h.mem (b.hdr + 8) = b.pages := (hinv.larges.hdr b hb).2
  obtain ⟨pmm', hcall', hwf', hr, hsum⟩ := pmmFree_spec hinv.wf (hinv.larges.ok b hb).nonempty.1
    horder hal (fun f hf => (hframes f hf).1)
    (Multiset.disjoint_left.mpr fun hf => (hframes _ hf).2)
  rw [Nat.sub_add_cancel habove, ← hpages, hcall] at hcall'
  obtain rfl := Option.some.inj hcall'
  refine ⟨hwf', hr, ?_⟩
  intro a ha hf
  rw [hsum, mem_add] at hf
  exact hf.imp_left fun hf => (Large.has_iff hvm horder habove hal).mpr ⟨ha, hf⟩

theorem heapInv_kfreeLarge (hb : b ∈ h.larges)
    (hcall : if vmallocOwns b.hdr then pmm = h.sys.st.pmm
      else pmmFree h.sys.st.pmm b.hdr (h.mem (b.hdr + 8)) = some pmm) :
    HeapInv { (h.setPmm pmm).setMem (write h.mem b.hdr 0) with larges := h.larges.erase b } := by
  obtain ⟨hwf, hregion, hfreed⟩ := LargeInv.freed hinv hb hcall
  have hpage : pageSize = 4096 := rfl
  have hlen := (hinv.larges.ok b hb).len_ge
  have hfirst : b.Has b.hdr := ⟨by omega, by omega⟩
  have hkeep : LargeInv { h.sys.st with mem := write h.mem b.hdr 0, pmm } h.sys.slabs
      (h.larges.erase b) := by
    refine (hinv.larges.erase b).keep hregion ?_ ?_ (hinv.larges.erase b).slabs
    · intro b' hb' a ha
      refine write_of_ne ?_
      rintro rfl
      exact hinv.larges.apart_of_erase hb hb' hfirst ha
    intro b' hb' hvm a ha hf
    have hmem := List.mem_of_mem_erase hb'
    obtain ⟨_, _, habove, _, _⟩ := (hinv.larges.ok b' hmem).block hvm
    rcases hfreed a (by have := ha.1; omega) hf with hin | hf
    · exact hinv.larges.apart_of_erase hb hb' hin ha
    · exact hinv.larges.not_free hinv.wf hmem ha hf
  refine hinv.change hwf hregion ?_ ?_ hkeep
  · intro a ha
    refine write_of_ne ?_
    rintro rfl
    exact hinv.larges.slabs b hb _ hfirst ha
  intro a ha hf
  obtain ⟨x, hx, hxa⟩ := ha
  obtain ⟨m', _, V, hbooks, _⟩ := hinv.inv
  have habove : h.sys.st.pmm.hhdmOffset ≤ x.1 := (hbooks.held x hx).above
  rcases hfreed a (by have := hxa.1; omega) hf with hin | hf
  · exact hinv.larges.slabs b hb a hin ⟨x, hx, hxa⟩
  · exact hinv.slab_taken ⟨x, hx, hxa⟩ hf

/-- **One step of the heap.** -/
theorem heapInv_step {l : HeapLabel Cpu} (hstep : HeapStep h l h') : HeapInv h' := by
  match l with
  | .slab l =>
    obtain ⟨hl, sys', hstep, rfl⟩ := hstep
    exact heapInv_slab hinv hl hstep
  | .kfree cpu a =>
    obtain ⟨hidle, ha, hnone, rfl⟩ := hstep
    exact heapInv_kfree hinv hidle ha hnone
  | .store a addr v =>
    obtain ⟨ha, hlo, hhi, h8, rfl⟩ := hstep
    exact heapInv_store hinv ha hlo hhi h8
  | .kmallocLarge size =>
    obtain ⟨_, _, p, pmm, hcall, rfl⟩ := hstep
    exact heapInv_kmallocLarge hinv hcall
  | .vmallocLarge size base =>
    obtain ⟨_, _, hmin, _, hlo, hhi, hunused, rfl⟩ := hstep
    exact heapInv_vmallocLarge hinv hmin hlo hhi hunused
  | .storeLarge b addr v =>
    obtain ⟨hb, hlo, _, hhas, _, rfl⟩ := hstep
    exact heapInv_storeLarge hinv hb hlo hhas
  | .kfreeLarge b =>
    obtain ⟨hb, _, pmm, hcall, rfl⟩ := hstep
    exact heapInv_kfreeLarge hinv hb hcall
  | .other mem pmm =>
    obtain ⟨hwf, hregion, hslabs, hlarges, rfl⟩ := hstep
    refine hinv.change hwf hregion ?_ ?_
      (hinv.larges.keep hregion (fun b hb a ha => (hlarges b hb a ha).1) ?_ hinv.larges.slabs)
    · rintro a ⟨x, hx, ha⟩
      exact (hslabs x hx a ha).1
    · rintro a ⟨x, hx, ha⟩
      rw [← hregion.hhdmOffset]
      exact (hslabs x hx a ha).2
    · intro b hb hvm a ha
      rw [← hregion.hhdmOffset]
      exact (hlarges b hb a ha).2 hvm

end

theorem heapInv_init (hinit : (heapSystem Cpu).init h) : HeapInv h := by
  obtain ⟨hslab, hlarges, harea⟩ := hinit
  have hpc : (h.sys.masked h.mem) = h.sys := by
    have hidle : ∀ cpu, h.sys.pc cpu = .idle := hslab.2.2.2.1
    unfold SlabSys.masked
    have : (fun k => (h.sys.pc k).settled) = h.sys.pc := by
      funext k
      rw [hidle k]
      rfl
    rw [this]
    rfl
  refine ⟨⟨h.mem, fun a => .inl rfl, ?_⟩, ?_⟩
  · rw [hpc]
    exact .init hslab
  · rw [hlarges]
    exact ⟨by simp, by simp, List.Pairwise.nil, by simp, harea⟩

theorem heapInv_reachable (hr : (heapSystem Cpu).Reachable h) : HeapInv h := by
  induction hr with
  | init hi => exact heapInv_init hi
  | step c _ hstep ih => exact heapInv_step ih hstep

end Steps

/-! ## Section 7: The test of `kfree` -/

/-- `kfree` and `krealloc` take the pointer for an object of a slab of class `c`. -/
def TreatedAsSlab (m : Mem) (ptr : Nat) (c : Fin 10) : Prop :=
  kfreeEnter m ptr = .release ptr ∧ kreallocOldSize m ptr = gSizeClasses c

/-- They take it for a large allocation of that many pages. -/
def TreatedAsLarge (m : Mem) (ptr pages : Nat) : Prop :=
  kfreeEnter m ptr = .large ptr ∧ kreallocOldSize m ptr = pages * pageSize - largeHdrSize

/-- The word two before the slot is part of an earlier slot and holds the magic number. -/
def MagicBefore (m : Mem) (s : Nat) (c : Fin 10) (i : Nat) : Prop :=
  ∃ j < i, slotAddr s c j ≤ slotAddr s c i - 16 ∧
    slotAddr s c i - 16 < slotAddr s c j + gSizeClasses c ∧
    m (slotAddr s c i - 16) = largeAllocMagic

section Test

variable {m m' : Mem} {s i : Nat} {c : Fin 10}

/-- An address that is not in the header and before a slot lies in an earlier one. -/
theorem exists_slot_of_lt {a : Nat} (hlo : s + slabHdr ≤ a) (hhi : a < slotAddr s c i) :
    ∃ j < i, slotAddr s c j ≤ a ∧ a < slotAddr s c j + gSizeClasses c := by
  have hpos : 0 < gSizeClasses c := Nat.lt_of_lt_of_le (by decide) (classOk c).size_ge
  have hdiv := Nat.div_add_mod (a - (s + slabHdr)) (gSizeClasses c)
  have hmod := Nat.mod_lt (a - (s + slabHdr)) hpos
  unfold slotAddr at hhi ⊢
  refine ⟨(a - (s + slabHdr)) / gSizeClasses c, ?_, ?_, ?_⟩
  · apply Nat.div_lt_of_lt_mul
    rw [Nat.mul_comm]
    omega
  · rw [Nat.mul_comm]
    omega
  · rw [Nat.mul_comm ((a - (s + slabHdr)) / gSizeClasses c)]
    omega

theorem isLargeAlloc_iff {fr : List Nat} (hm : Masks m m') (h : SlabRep m' s c fr) (h8 : 8 ∣ s)
    (hhi : s + slabLen c ≤ 2 ^ 64) (hi : i < capacity c) :
    isLargeAlloc m (slotAddr s c i) = true ↔ MagicBefore m s c i := by
  have hb := slotAddr_bounds (s := s) hi
  have hfit := (classOk c).slots_fit
  have hdvd := slotAddr_dvd c i h8
  have hhdr : slabHdr = 32 := rfl
  have hsize := (classOk c).size_ge
  have hsub : sub64 (slotAddr s c i) 16 = slotAddr s c i - 16 := sub64_of_le (by omega) (by omega)
  have hnot := h.not_large h8 hhi hi
  unfold isLargeAlloc at hnot ⊢
  rw [hsub, beq_eq_false_iff_ne] at hnot
  rw [hsub, beq_iff_eq]
  constructor
  · intro hmagic
    -- in the masked memory the word is a 1, which no word of the header is
    have hone : m' (slotAddr s c i - 16) = 1 := by
      rcases hm (slotAddr s c i - 16) with heq | ⟨_, hone⟩
      · exact absurd (heq.trans hmagic) hnot
      · exact hone
    have h1 : slotAddr s c i - 16 ≠ s + 16 := by
      intro heq
      rw [heq] at hone
      exact (h.links h8).1 hone
    have h2 : slotAddr s c i - 16 ≠ s + 24 := by
      intro heq
      rw [heq] at hone
      exact h.hdr_ne_one hone
    obtain ⟨j, hj, hlo, hlt⟩ :=
      exists_slot_of_lt (s := s) (c := c) (i := i) (a := slotAddr s c i - 16) (by omega) (by omega)
    exact ⟨j, hj, hlo, hlt, hmagic⟩
  · intro ⟨_, _, _, _, hmagic⟩
    exact hmagic

end Test

/-- **Which pointers `kfree` and `krealloc` get right**, in every reachable state of the
    heap: an object of a slab unless the word two before it is another slot's and holds
    the magic number, and every large allocation. -/
theorem kfree_classification {h : HeapSys Cpu} (hr : (heapSystem Cpu).Reachable h) :
    (∀ a ∈ h.sys.live, ∃ c i, (slabOf a.ptr, c) ∈ h.sys.slabs ∧ i < capacity c ∧
      a.ptr = slotAddr (slabOf a.ptr) c i ∧
      (TreatedAsSlab h.mem a.ptr c ↔ ¬ MagicBefore h.mem (slabOf a.ptr) c i)) ∧
    ∀ b ∈ h.larges, TreatedAsLarge h.mem b.ptr b.pages := by
  have hinv := heapInv_reachable hr
  constructor
  · intro a ha
    obtain ⟨m', hm, V, hbooks, _⟩ := hinv.inv
    obtain ⟨s, c, i, hs, hi, _, hptr, _⟩ := hbooks.owner a ha
    have hrep := hbooks.rep.slab s c hs
    have hslab : slabOf a.ptr = s := by
      rw [hptr]
      exact hbooks.geom.slabOf_slot hs hi
    have hlarge := isLargeAlloc_iff hm hrep (hbooks.geom.dvd8 hs) (hbooks.geom.high s c hs) hi
    rw [← hptr] at hlarge
    rw [hslab]
    refine ⟨c, i, hs, hi, hptr, ?_⟩
    rw [← hlarge]
    unfold TreatedAsSlab kfreeEnter kreallocOldSize
    by_cases hl : isLargeAlloc h.mem a.ptr = true
    · rw [if_pos hl]
      exact iff_of_false (fun hslab => Pc.noConfusion hslab.1) (fun hnot => hnot hl)
    rw [if_neg hl, if_neg hl, hslab]
    -- the size comes from the header, which is as in the masked memory
    have hsize : objSizeOf h.mem s = gSizeClasses c := by
      unfold objSizeOf
      rw [hm.read hrep.hdr_ne_one]
      exact hrep.fields.1
    exact iff_of_true ⟨rfl, hsize⟩ hl
  intro b hb
  have hok := hinv.larges.ok b hb
  obtain ⟨hmagic, hpages⟩ := hinv.larges.hdr b hb
  have hwords : sub64 b.ptr largeHdrSize = b.hdr := by
    have hlt : b.hdr + b.len ≤ 2 ^ 64 := by
      by_cases hvm : vmallocOwns b.hdr
      · exact Nat.le_trans (hok.area hvm) (by decide)
      obtain ⟨order, horder, habove, hal, hframes⟩ := hok.block hvm
      have hrange := hal.phys_range hinv.wf fun f hf => (hframes f hf).1
      have hdm := hinv.wf.direct_map
      rw [Large.len_block hvm horder, ← two_pow_pageShift_add]
      simp only at hrange
      omega
    have hlen := hok.len_ge
    have hpage : pageSize = 4096 := rfl
    have h16 : largeHdrSize = 16 := rfl
    unfold Large.ptr
    rw [sub64_of_le (by omega) (by omega), Nat.add_sub_cancel]
  have hlarge : isLargeAlloc h.mem b.ptr = true := by
    show (h.mem (sub64 b.ptr largeHdrSize) == largeAllocMagic) = true
    rw [hwords, beq_iff_eq]
    exact hmagic
  have hlt : b.pages * pageSize < 2 ^ 64 := by
    have := hok.nonempty.2
    show b.pages * 4096 < 2 ^ 64
    omega
  have hge : largeHdrSize ≤ b.pages * pageSize :=
    Nat.le_trans (by decide) (Nat.le_mul_of_pos_left pageSize (Nat.pos_of_ne_zero hok.nonempty.1))
  have hval : h.mem (b.hdr + 8) = b.pages := hpages
  unfold TreatedAsLarge kfreeEnter kreallocOldSize
  rw [if_pos hlarge, if_pos hlarge]
  refine ⟨rfl, ?_⟩
  simp only [hwords, hval]
  rw [show u64 (b.pages * pageSize) = b.pages * pageSize from Nat.mod_eq_of_lt hlt,
    sub64_of_le hlt hge]

end Simulation

/-! ### Two objects of a slab -/

section Pair

variable {h : HeapSys (Fin 2)} {c : Fin 10} {size : Nat}

variable {s : Nat}

section

variable (hr : (heapSystem (Fin 2)).Reachable h)
include hr

theorem heap_grow {st : SlabState} (hpc : h.sys.pc 0 = .grow c size)
    (hnew : slabNew h.sys.st c = some (s, st)) (hs : s ≠ 0) :
    (heapSystem (Fin 2)).Reachable { h with
      sys := { h.sys with st, slabs := (s, c) :: h.sys.slabs }.setPc 0 (.install c size s) } := by
  refine .step (.slab (.grow 0)) hr ⟨trivial, _, ⟨c, size, s, st, hpc, hnew, rfl⟩, ?_⟩
  rw [if_neg hs]

theorem heap_install (hpc : h.sys.pc 0 = .install c size s) :
    (heapSystem (Fin 2)).Reachable { h with
      sys := { h.sys with
        st := (installSlab h.sys.st c s).2,
        live := ⟨(installSlab h.sys.st c s).1, size⟩ :: h.sys.live }.setPc 0 .idle } :=
  .step (.slab (.install 0)) hr ⟨trivial, _, ⟨c, size, s, hpc, rfl⟩, rfl⟩

theorem heap_take (hpc : h.sys.pc 0 = .idle) (hlo : 1 ≤ size) (hhi : size ≤ slabMaxSize)
    (hc : cacheFor size = some c) (hhead : (h.sys.st.caches c).partialHead ≠ 0) :
    (heapSystem (Fin 2)).Reachable { h with
      sys := { h.sys with
        st := (takeObject h.sys.st c).2,
        live := ⟨(takeObject h.sys.st c).1, size⟩ :: h.sys.live } } := by
  refine .step (.slab (.kmalloc 0 size)) hr ⟨trivial, _, ⟨hpc, hlo, hhi, rfl⟩, ?_⟩
  simp only [kmallocEnter, hc, if_neg hhead]

end

/-- The first object of a new slab of the class of 16 bytes, and the second one. -/
def pairFirst (r : Nat × SlabState) : Nat × SlabState := installSlab r.2 1 r.1

@[inherit_doc pairFirst] def pairSecond (r : Nat × SlabState) : Nat × SlabState :=
  takeObject (pairFirst r).2 1

/-- Two live objects of 16 bytes. -/
def pairHeap (r : Nat × SlabState) : HeapSys (Fin 2) where
  sys := ⟨(pairSecond r).2, (((twoCpus.setPc 0 (.grow 1 16)).setPc 0 (.install 1 16 r.1)).setPc
    0 .idle).pc, [(r.1, 1)], [⟨(pairSecond r).1, 16⟩, ⟨(pairFirst r).1, 16⟩]⟩
  larges := []

/-- On the machine of `twoCpus` the slab can be made, and the two objects are neighbours. -/
theorem pair_new : ∃ r, slabNew twoCpus.st 1 = some r ∧ r.1 ≠ 0 ∧
    ((pairFirst r).2.caches 1).partialHead ≠ 0 ∧ 8 ∣ (pairFirst r).1 ∧
    sub64 (pairSecond r).1 16 = (pairFirst r).1 :=
  ⟨(slabNew twoCpus.st 1).get (by decide +kernel), (Option.some_get _).symm, by decide +kernel,
    by decide +kernel, by decide +kernel, by decide +kernel⟩

theorem pairHeap_reachable {r : Nat × SlabState} (hnew : slabNew twoCpus.st 1 = some r)
    (hne : r.1 ≠ 0) (hhead : ((pairFirst r).2.caches 1).partialHead ≠ 0) :
    (heapSystem (Fin 2)).Reachable (pairHeap r) := by
  have harea : twoCpus.st.pmm.hhdmOffset + twoCpus.st.pmm.memEnd ≤ vmallocBase := by decide
  have h0 : (heapSystem (Fin 2)).Reachable ⟨twoCpus, []⟩ := .init ⟨twoCpus_init, rfl, harea⟩
  have h1 : (heapSystem (Fin 2)).Reachable ⟨twoCpus.setPc 0 (.grow 1 16), []⟩ :=
    .step (.slab (.kmalloc 0 16)) h0 ⟨trivial, _, ⟨rfl, by decide, by decide, rfl⟩, rfl⟩
  have h2 := heap_grow h1 rfl hnew hne
  have h3 := heap_install h2 rfl
  have hclass : cacheFor 16 = some 1 := by decide
  -- elaborated against `pairHeap r` directly, the unification would unfold the whole state
  have h4 := heap_take h3 rfl (by decide) (by decide) hclass hhead
  exact h4

/-- The classification where two objects and a large allocation are live. -/
theorem kfree_classification_pair :
    ∃ h : HeapSys (Fin 2), (heapSystem (Fin 2)).Reachable h ∧ h.sys.live.length = 2 ∧
      h.larges.length = 1 ∧
      (∀ a ∈ h.sys.live, ∃ c i, (slabOf a.ptr, c) ∈ h.sys.slabs ∧ i < capacity c ∧
        a.ptr = slotAddr (slabOf a.ptr) c i ∧
        (TreatedAsSlab h.mem a.ptr c ↔ ¬ MagicBefore h.mem (slabOf a.ptr) c i)) ∧
      ∀ b ∈ h.larges, TreatedAsLarge h.mem b.ptr b.pages := by
  obtain ⟨r, hnew, hne, hhead, _, _⟩ := pair_new
  have hr : (heapSystem (Fin 2)).Reachable { (pairHeap r).setMem (writeLargeHdr (clear
      (pairHeap r).mem vmallocBase (largePages 0x100000 * pageSize)) vmallocBase
      (largePages 0x100000)) with larges := [⟨vmallocBase, largePages 0x100000, 0x100000⟩] } := by
    refine .step (.vmallocLarge 0x100000 vmallocBase) (pairHeap_reachable hnew hne hhead)
      ⟨by decide, by decide, by decide, by decide, le_rfl, by decide, ?_, rfl⟩
    intro b hb
    cases hb
  exact ⟨_, hr, rfl, rfl, kfree_classification hr⟩

/-- The owner of the first object stores the magic number in it; then `kfree` takes the
    second one for a large allocation. -/
theorem kfree_takes_object_for_large :
    ∃ h : HeapSys (Fin 2), (heapSystem (Fin 2)).Reachable h ∧
      ∃ a ∈ h.sys.live, kfreeEnter h.mem a.ptr = .large a.ptr := by
  obtain ⟨r, hnew, hne, hhead, h8, hbefore⟩ := pair_new
  have hr : (heapSystem (Fin 2)).Reachable ((pairHeap r).setMem
      (write (pairHeap r).mem (pairFirst r).1 largeAllocMagic)) := by
    refine .step (.store ⟨(pairFirst r).1, 16⟩ (pairFirst r).1 largeAllocMagic)
      (pairHeap_reachable hnew hne hhead) ⟨?_, le_rfl, by simp, h8, rfl⟩
    exact List.mem_cons_of_mem _ (.head _)
  refine ⟨_, hr, ⟨(pairSecond r).1, 16⟩, List.mem_cons_self, ?_⟩
  have hlarge : isLargeAlloc (write (pairHeap r).mem (pairFirst r).1 largeAllocMagic)
      (pairSecond r).1 = true := by
    unfold isLargeAlloc
    rw [hbefore, write_self, beq_iff_eq]
  show kfreeEnter (write (pairHeap r).mem (pairFirst r).1 largeAllocMagic) (pairSecond r).1 = _
  unfold kfreeEnter
  rw [if_pos hlarge]

end Pair

end Cervus.Slab
